import LeastPrivilege.Proofs.History
import LeastPrivilege.Proofs.Preservation

/-!
# Totals of counted blocks

The calls in a counted block count together just what is executed of the block. Each counts in the
process that makes it: a process that goes on with its counter adds to the total, and one that has
found the counter of another begins a total of its own. So when a process is duplicated in the
middle of a block, every operation is counted once in each process that executes it.
-/

namespace LeastPrivilege

namespace Counter

variable {c : Counter} {pid : UInt32} {identity : Nat → Identity} {events : List (Host × Event)}
  {ops : List Operation}

/-! ## Counting in one process -/

theorem Event.not_resets {e : Event} {live : Host} (h : e.initial? = none)
    (hpid : live.pid = pid) : ¬e.Resets (some pid) live := by
  rintro (hrequest | ⟨-, hother⟩)
  · simp [h] at hrequest
  · exact hother (by rw [hpid])

/-- A process that goes on with its own counter adds to the total. -/
theorem run_of_owner (howner : c.owner? = some pid) (hpid : ∀ x ∈ events, x.1.pid = pid)
    (hrequest : ∀ x ∈ events, x.2.initial? = none) :
    (c.run events).owner? = some pid ∧
      (c.run events).total = c.total + Event.countedBy (events.map Prod.snd) := by
  have hquiet : ∀ x ∈ events, ¬x.2.Resets c.owner? x.1 := by
    intro x hx
    rw [howner]
    exact Event.not_resets (hrequest x hx) (hpid x hx)
  exact ⟨(run_of_quiet hquiet).1.trans howner, (run_of_quiet hquiet).2⟩

/-- A process that counts with the counter of another begins a total of its own. -/
theorem total_run_of_other (hother : c.owner? ≠ some pid) (hpid : ∀ x ∈ events, x.1.pid = pid)
    (hrequest : ∀ x ∈ events, x.2.initial? = none)
    (hcounts : 0 < Event.countedBy (events.map Prod.snd)) :
    (c.run events).total = Event.countedBy (events.map Prod.snd) := by
  induction events generalizing c with
  | nil => exact absurd hcounts (Nat.lt_irrefl 0)
  | cons x events ih =>
    obtain ⟨hx, hevents⟩ := List.forall_mem_cons.1 hpid
    obtain ⟨hxrequest, hrequests⟩ := List.forall_mem_cons.1 hrequest
    rw [List.map_cons, Event.countedBy_cons] at hcounts ⊢
    cases hcounted : x.2.counted? with
    | some n =>
      -- The first event that counts is a reset, and all later ones are in the same process.
      have hreset : x.2.Resets c.owner? x.1 := Or.inr ⟨by simp [hcounted], by rwa [hx]⟩
      obtain ⟨howner, htotal⟩ := apply_of_resets hreset
      rw [hx] at howner
      rw [hcounted] at htotal
      rw [← htotal]
      exact (run_of_owner howner hevents hrequests).2
    | none =>
      have hquiet : ¬x.2.Resets c.owner? x.1 := by
        simp [Event.Resets, hxrequest, hcounted]
      rw [hcounted, Option.getD_none, Nat.zero_add] at hcounts
      rw [Option.getD_none, Nat.zero_add]
      refine ih ?_ hevents hrequests hcounts
      rw [(apply_of_not_resets hquiet).1]
      exact hother

/-- The events of operations that a process executes, when it has a given identity at each of them.
-/
def eventsOf (pid : UInt32) (identity : Nat → Identity) (ops : List Operation) :
    List (Host × Event) :=
  ops.zipIdx.filterMap fun x => x.1.event?.map fun e => (⟨pid, identity x.2⟩, e)

/-- The counter after a process has executed operations. Calls of routines act on it, and nothing
else does. -/
def execute (c : Counter) (pid : UInt32) (identity : Nat → Identity) (ops : List Operation) :
    Counter :=
  c.run (eventsOf pid identity ops)

theorem map_snd_eventsOf (pid : UInt32) (identity : Nat → Identity) (ops : List Operation) :
    (eventsOf pid identity ops).map Prod.snd = ops.filterMap Operation.event? := by
  have hops : (ops.zipIdx.map Prod.fst).filterMap Operation.event? =
      ops.filterMap Operation.event? := by
    rw [List.zipIdx_map_fst]
  rw [← hops, eventsOf, List.map_filterMap, List.filterMap_map]
  refine List.filterMap_congr fun x _ => ?_
  cases h : x.1.event? <;> simp [h]

theorem pid_of_mem_eventsOf : ∀ x ∈ eventsOf pid identity ops, x.1.pid = pid := by
  intro x hx
  obtain ⟨y, -, hy⟩ := List.mem_filterMap.1 hx
  obtain ⟨e, -, rfl⟩ := Option.map_eq_some_iff.1 hy
  rfl

theorem initial?_eventsOf (h : ∀ e ∈ ops.filterMap Operation.event?, e.initial? = none) :
    ∀ x ∈ eventsOf pid identity ops, x.2.initial? = none := by
  rw [← map_snd_eventsOf pid identity, List.forall_mem_map] at h
  exact h

theorem execute_of_owner (identity : Nat → Identity) (howner : c.owner? = some pid)
    (hrequest : ∀ e ∈ ops.filterMap Operation.event?, e.initial? = none) :
    (c.execute pid identity ops).owner? = some pid ∧
      (c.execute pid identity ops).total =
        c.total + Event.countedBy (ops.filterMap Operation.event?) := by
  rw [← map_snd_eventsOf pid identity]
  exact run_of_owner howner pid_of_mem_eventsOf (initial?_eventsOf hrequest)

theorem total_execute_of_other (identity : Nat → Identity) (hother : c.owner? ≠ some pid)
    (hrequest : ∀ e ∈ ops.filterMap Operation.event?, e.initial? = none)
    (hcounts : 0 < Event.countedBy (ops.filterMap Operation.event?)) :
    (c.execute pid identity ops).total = Event.countedBy (ops.filterMap Operation.event?) := by
  rw [← map_snd_eventsOf pid identity] at hcounts ⊢
  exact total_run_of_other hother pid_of_mem_eventsOf (initial?_eventsOf hrequest) hcounts

/-- When a process sets the counter up in the midst of operations, what it counts is what is counted
behind that. -/
theorem total_execute_of_start {earlier later : List Event} {s : CapabilitySet}
    (c : Counter) (pid : UInt32) (identity : Nat → Identity)
    (hevents : ops.filterMap Operation.event? = earlier ++ .start s :: later)
    (hrequest : ∀ e ∈ later, e.initial? = none) :
    (c.execute pid identity ops).total = Event.countedBy later := by
  rw [← map_snd_eventsOf pid identity] at hevents
  obtain ⟨xs, tail, hsplit, -, htail⟩ := List.map_eq_append_iff.1 hevents
  obtain ⟨x, ys, rfl, hx, rfl⟩ := List.map_eq_cons_iff.1 htail
  have hpids : ∀ y ∈ xs ++ x :: ys, y.1.pid = pid := by
    rw [← hsplit]
    exact pid_of_mem_eventsOf
  obtain ⟨hxpid, hyspid⟩ := List.forall_mem_cons.1 (List.forall_mem_append.1 hpids).2
  have howner : ((c.run xs).apply x.1 x.2).owner? = some pid := by
    rw [hx, ← hxpid]
    rfl
  have htotal : ((c.run xs).apply x.1 x.2).total = 0 := by
    rw [hx]
    rfl
  have hlater := (run_of_owner howner hyspid (List.forall_mem_map.1 hrequest)).2
  rw [htotal, Nat.zero_add] at hlater
  rw [execute, hsplit, run_append]
  exact hlater

end Counter

/-! ## What the calls of a block count -/

namespace Operation

open Counter

variable {op : Operation} {e : Event} {ops : List Operation}

theorem initial?_of_event? {r : Routine} {args : List Nat} (hr : r ≠ .start)
    (h : r.event? args = some e) : e.initial? = none := by
  unfold Routine.event? at h
  split at h <;> simp_all [Event.initial?, eq_comm]

theorem IsCounting.initial?_eq_none (hop : op.IsCounting) (h : op.event? = some e) :
    e.initial? = none := by
  obtain ⟨r, args, rfl, hr, -⟩ := hop
  rw [event?_invoke] at h
  obtain ⟨values, -, h⟩ := Option.bind_eq_some_iff.1 h
  exact initial?_of_event? hr h

theorem filterMap_event?_eq_nil (h : ∀ op ∈ ops, op.routine? = none) :
    ops.filterMap event? = [] := by
  rw [List.filterMap_eq_nil_iff]
  intro op hop
  exact event?_eq_none (h op hop)

end Operation

namespace BlockPlan

open Counter PlannedCall

variable {special? : Operation → Option SpecialCall} {settings : Settings} {procedure : String}
  {b : Block} {plan : BlockPlan} {op : Operation} {ops : List Operation} {n : Nat}

theorem initial?_of_interspersed {added : List Operation}
    (h : Interspersed Operation.IsCounting ops added) (hops : ∀ op ∈ ops, op.routine? = none) :
    ∀ e ∈ added.filterMap Operation.event?, e.initial? = none := by
  intro e he
  obtain ⟨op, hop, hevent⟩ := List.mem_filterMap.1 he
  rcases h.mem_or hop with hop | hop
  · rw [Operation.event?_eq_none (hops op hop)] at hevent
    cases hevent
  · exact hop.initial?_eq_none hevent

/-- The calls around a special call count the window that it closes. -/
theorem countedBy_around (hn : n < UInt32.size) (hop : op.routine? = none)
    (special : SpecialCall) :
    Event.countedBy ((around n op special).filterMap Operation.event?) = n := by
  have hself := Operation.event?_eq_none hop
  have hcount := Operation.event?_countArg hn
  cases special with
  | drop s =>
    have hdrop := Operation.event?_countArg_bits hn .countDrop s
    simp [around, hdrop, hself, Routine.event?, Event.countedBy_cons, Event.counted?]
  | duplicate =>
    have hfork : (Routine.announceFork.invoke []).event? = some .announceFork :=
      Operation.event?_invoke ..
    simp [around, hcount, hfork, hself, Routine.event?, Event.countedBy_cons, Event.counted?]
  | replace =>
    have hreport : (Routine.report.invoke []).event? = none := Operation.event?_invoke ..
    simp [around, hcount, hreport, hself, Routine.event?, Event.countedBy_cons, Event.counted?]
  | identityChange =>
    simp [around, hcount, hself, Routine.event?, Event.countedBy_cons, Event.counted?]

/-- The calls in place count all operations, with those that were yet to be counted. -/
theorem countedBy_weave (hend : ops = [] → n = 0) (hn : n + ops.length < UInt32.size)
    (hops : ∀ op ∈ ops, op.routine? = none) :
    Event.countedBy ((weave special? n ops).filterMap Operation.event?) = n + ops.length := by
  induction ops generalizing n with
  | nil => simp [weave, hend]
  | cons op ops ih =>
    obtain ⟨hop, hrest⟩ := List.forall_mem_cons.1 hops
    rw [List.length_cons] at hn ⊢
    have hwindow : n + 1 < UInt32.size := by omega
    rw [weave]
    cases special? op with
    | some special =>
      simp only
      rw [List.filterMap_append, Event.countedBy_append, countedBy_around hwindow hop,
        ih (fun _ => rfl) (by omega) hrest]
      omega
    | none =>
      by_cases hlast : ops = []
      · subst hlast
        simp [Operation.event?_countArg hwindow, Operation.event?_eq_none hop, Routine.event?,
          Event.countedBy_cons, Event.counted?]
      · simp only [if_neg hlast]
        rw [List.filterMap_cons_none (Operation.event?_eq_none hop),
          ih (fun hnil => absurd hnil hlast) (by omega) hrest]
        omega

theorem routine?_of_calls (h : ∀ c ∈ b.calls, ∀ r : Routine, c.target? ≠ some r.name) :
    ∀ op ∈ b.operations, op.routine? = none := fun op hop =>
  Operation.routine?_eq_none fun c hc => h c (List.mem_filterMap.2 ⟨op, hop, hc⟩)

/-- A counted block counts what is executed of it, and does not set the counter up. -/
theorem events_result (hplan : ofBlock settings procedure b = .ok plan)
    (hlength : b.operations.length < UInt32.size)
    (hroutines : ∀ op ∈ b.operations, op.routine? = none) :
    Event.countedBy (plan.result.operations.filterMap Operation.event?) = b.live.length ∧
      ∀ e ∈ plan.result.operations.filterMap Operation.event?, e.initial? = none := by
  rw [← b.live_append_idle] at hroutines hlength
  obtain ⟨hlive, hidle⟩ := List.forall_mem_append.1 hroutines
  have hsize : 0 + b.live.length < UInt32.size := by
    rw [List.length_append] at hlength
    omega
  rw [operations_result hplan, List.filterMap_append, Operation.filterMap_event?_eq_nil hidle,
    List.append_nil, countedBy_weave (fun _ => rfl) hsize hlive, Nat.zero_add]
  exact ⟨rfl, initial?_of_interspersed (interspersed_weave 0 b.live) hlive⟩

/-! ## A process that is duplicated -/

theorem filter_of_interspersed {added : List Operation}
    (h : Interspersed Operation.IsCounting ops added) (hops : ∀ op ∈ ops, op.routine? = none) :
    added.filter (fun op => op.routine?.isNone) = ops := by
  rw [h.filter_eq fun op hop => by simpa [Option.isSome_iff_ne_none] using hop.routine?_isSome]
  exact List.filter_eq_self.2 fun op hop => by simp [hops op hop]

/-- A fork stands in the counted block between what was made of the operations before it and what
was made of those after it. The latter counts all of them. -/
theorem exists_fork_split (hplan : ofBlock settings procedure b = .ok plan)
    (hlength : b.operations.length < UInt32.size)
    (hroutines : ∀ op ∈ b.operations, op.routine? = none) {k : Nat}
    (hop : b.operations[k]? = some op) (hk : k < b.live.length)
    (hfork : op.special? settings ⟨procedure, b.label⟩ = some .duplicate) :
    ∃ before after, plan.result.operations = before ++ op :: after ∧
      before.filter (fun op => op.routine?.isNone) = b.operations.take k ∧
      after.filter (fun op => op.routine?.isNone) = b.operations.drop (k + 1) ∧
      Event.countedBy (after.filterMap Operation.event?) = b.live.length - (k + 1) := by
  rw [← b.live_append_idle] at hroutines hlength hop
  obtain ⟨hliveOps, hidleOps⟩ := List.forall_mem_append.1 hroutines
  rw [List.getElem?_append_left hk] at hop
  have hsplit : b.live = b.live.take k ++ op :: b.live.drop (k + 1) := by
    obtain ⟨_, hget⟩ := List.getElem?_eq_some_iff.1 hop
    rw [← hget, List.getElem_cons_drop, List.take_append_drop]
  have hearlier : ∀ op ∈ b.live.take k, op.routine? = none := fun op hop =>
    hliveOps op (List.mem_of_mem_take hop)
  have hlater : ∀ op ∈ b.live.drop (k + 1), op.routine? = none := fun op hop =>
    hliveOps op (List.mem_of_mem_drop hop)
  have hsize : 0 + (b.live.drop (k + 1)).length < UInt32.size := by
    rw [List.length_append] at hlength
    rw [List.length_drop]
    omega
  obtain ⟨woven, m, hwoven, hweave⟩ := exists_weave_append
    (Operation.special? settings ⟨procedure, b.label⟩)
    (List.cons_ne_nil op (b.live.drop (k + 1))) 0 (b.live.take k)
  refine ⟨woven ++ [Routine.count.invoke [countArg (m + 1)], Routine.announceFork.invoke []],
    weave (Operation.special? settings ⟨procedure, b.label⟩) 0 (b.live.drop (k + 1)) ++ b.idle,
    ?_, ?_, ?_, ?_⟩
  · rw [← hsplit, weave_special hfork] at hweave
    rw [operations_result hplan, hweave]
    simp [around]
  · rw [← b.live_append_idle, List.take_append_of_le_length (by omega), List.filter_append,
      filter_of_interspersed hwoven hearlier]
    simp [Operation.routine?_invoke]
  · rw [← b.live_append_idle, List.drop_append_of_le_length (by omega)]
    exact filter_of_interspersed ((interspersed_weave ..).append (.refl ..))
      (List.forall_mem_append.2 ⟨hlater, hidleOps⟩)
  · rw [List.filterMap_append, Operation.filterMap_event?_eq_nil hidleOps, List.append_nil,
      countedBy_weave (fun _ => rfl) hsize hlater, Nat.zero_add, List.length_drop]

/-- When a process is duplicated in the middle of a counted block, every operation of the block
counts once in each process that executes it. The fork at a position of the block stands in the
counted block between what was made of the operations before it and what was made of those after it.
By the end of the block the total of the parent has grown by all operations that are executed, and
the total of the child is the number of those behind the fork, whatever identities the two have
meanwhile. -/
theorem totals_across_fork (hplan : ofBlock settings procedure b = .ok plan)
    (hlength : b.operations.length < UInt32.size)
    (hroutines : ∀ c ∈ b.calls, ∀ r : Routine, c.target? ≠ some r.name) {k : Nat} {call : Call}
    (hcall : b.operations[k]? = some (.call call))
    (hfork : SpecialCall.classify settings ⟨procedure, b.label⟩ call = .ok (some .duplicate))
    (hrest : k + 1 < b.live.length) :
    ∃ before after, plan.result.operations = before ++ .call call :: after ∧
      before.filter (fun op => op.routine?.isNone) = b.operations.take k ∧
      after.filter (fun op => op.routine?.isNone) = b.operations.drop (k + 1) ∧
      ∀ (c : Counter) (childPid : UInt32) (shared parent child : Nat → Identity),
        c.started = true → childPid ≠ c.pid →
          let forked := c.execute c.pid shared (before ++ [.call call])
          (forked.execute c.pid parent after).total = c.total + b.live.length ∧
            (forked.execute childPid child after).total = b.live.length - (k + 1) := by
  have hroutine := routine?_of_calls hroutines
  have hspecial : (Operation.call call).special? settings ⟨procedure, b.label⟩ =
      some .duplicate := by
    simp [Operation.special?, Operation.call?, hfork, Except.toOption]
  obtain ⟨before, after, hops, hbefore, hafter, hbehind⟩ :=
    exists_fork_split hplan hlength hroutine hcall (Nat.lt_of_succ_lt hrest) hspecial
  refine ⟨before, after, hops, hbefore, hafter, ?_⟩
  intro c childPid shared parent child hstarted hchild forked
  obtain ⟨hcounted, hrequest⟩ := events_result hplan hlength hroutine
  rw [hops, List.append_cons, List.filterMap_append] at hcounted hrequest
  obtain ⟨hearly, hlate⟩ := List.forall_mem_append.1 hrequest
  have hbegin : c.owner? = some c.pid := by simp [owner?, hstarted]
  obtain ⟨howner, htotal⟩ := execute_of_owner shared hbegin hearly
  constructor
  · rw [(execute_of_owner parent howner hlate).2, htotal, Nat.add_assoc, ← Event.countedBy_append,
      hcounted]
  · have hother : forked.owner? ≠ some childPid := by
      rw [howner]
      exact fun h => hchild (Option.some.inj h).symm
    rw [total_execute_of_other child hother hlate (by omega), hbehind]

/-- Of the sample block eight operations are executed, two of them behind its fork. -/
theorem totals_across_fork_sample : ∃ plan before after, ofBlock {} "main" sampleBlock = .ok plan ∧
    plan.result.operations = before ++ .call (.direct "fork" []) :: after ∧
    before.filter (fun op => op.routine?.isNone) = sampleBlock.operations.take 5 ∧
    let forked := (Counter.fresh.run sampleEvents).execute 7 (fun _ => { ruid := 1000 })
      (before ++ [.call (.direct "fork" [])])
    (forked.execute 7 (fun _ => {}) after).total = 8 ∧
      (forked.execute 8 (fun _ => { ruid := 1000 }) after).total = 2 := by
  have hroutines : ∀ r : Routine, ∀ c ∈ sampleBlock.calls, c.target? ≠ some r.name := by
    intro r
    cases r <;> decide
  have hcall : sampleBlock.operations[5]? = some (.call (.direct "fork" [])) := rfl
  obtain ⟨plan, hplan⟩ : ∃ plan, ofBlock {} "main" sampleBlock = .ok plan := ⟨_, rfl⟩
  obtain ⟨before, after, hops, hbefore, -, htotals⟩ := totals_across_fork hplan (by decide)
    (fun c hc r => hroutines r c hc) hcall rfl (by decide)
  refine ⟨plan, before, after, hplan, hops, hbefore, ?_⟩
  exact htotals (Counter.fresh.run sampleEvents) 8 _ _ _ rfl (by decide)

end BlockPlan

end LeastPrivilege
