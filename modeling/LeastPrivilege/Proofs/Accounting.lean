import LeastPrivilege.Proofs.Ledger
import LeastPrivilege.Proofs.Windows

/-!
# A counted block keeps the account

When a process runs through a counted block, its counter ends up with the account of somebody who
watches the block itself and enters every operation as it is executed. In between the counter lags
behind by the operations of the window that is open, and only by these.
-/

namespace LeastPrivilege

namespace Operation

variable {op : Operation}

/-- The routine that an operation calls. -/
def routine? (op : Operation) : Option Routine :=
  op.call?.bind fun c => c.target?.bind Routine.ofName?

/-- What an operation does to the counter, if it calls a routine with numbers. -/
def event? (op : Operation) : Option Counter.Event := do
  let c ← op.call?
  let r ← op.routine?
  let args ← c.args.mapM Operand.literal?
  r.event? (args.map UInt64.toNat)

theorem event?_eq_none (h : op.routine? = none) : op.event? = none := by
  rw [event?, h]
  cases op.call? <;> rfl

theorem routine?_eq_none (h : ∀ c, op.call? = some c → ∀ r : Routine, c.target? ≠ some r.name) :
    op.routine? = none := by
  rw [routine?, Option.bind_eq_none_iff]
  intro c hc
  rw [Option.bind_eq_none_iff]
  intro name hname
  rw [Routine.ofName?, List.find?_eq_none]
  intro r _ hr
  exact h c hc r (by rw [hname, beq_iff_eq.1 hr])

theorem routine?_invoke (r : Routine) (args : List Operand) :
    (r.invoke args).routine? = some r := by
  simp [routine?, Routine.invoke, call?, Call.direct, Call.target?]

theorem event?_invoke (r : Routine) (args : List Operand) :
    (r.invoke args).event? =
      (args.mapM Operand.literal?).bind fun values => r.event? (values.map UInt64.toNat) := by
  rw [event?, routine?_invoke]
  rfl

/-- A count that its operand can hold is read as it was written. -/
theorem toNat_countArg {n : Nat} (h : n < UInt32.size) : (UInt32.ofNat n).toUInt64.toNat = n := by
  rw [UInt32.toNat_toUInt64, UInt32.toNat_ofNat_of_lt' h]

theorem toNat_bits (s : CapabilitySet) : (UInt64.ofNat s.bits).toNat = s.bits :=
  UInt64.toNat_ofNat_of_lt' (Nat.lt_trans s.bits_lt (by decide))

theorem event?_countArg {n : Nat} (h : n < UInt32.size) (r : Routine) :
    (r.invoke [PlannedCall.countArg n]).event? = r.event? [n] := by
  rw [event?_invoke]
  change r.event? [(UInt32.ofNat n).toUInt64.toNat] = r.event? [n]
  rw [toNat_countArg h]

theorem event?_countArg_bits {n : Nat} (h : n < UInt32.size) (r : Routine) (s : CapabilitySet) :
    (r.invoke [PlannedCall.countArg n, .i64 (.ofNat s.bits)]).event? =
      r.event? [n, s.bits] := by
  rw [event?_invoke]
  change r.event? [(UInt32.ofNat n).toUInt64.toNat, (UInt64.ofNat s.bits).toNat] =
    r.event? [n, s.bits]
  rw [toNat_countArg h, toNat_bits]

end Operation

/-- The state of a process that runs counted operations. -/
structure Execution where
  counter : Counter
  live : Host
  /-- How often the process has changed its identity. -/
  changes : Nat := 0

/-- What somebody has seen who watches the operations themselves. -/
structure Walk where
  account : Account
  /-- How often the process has changed its identity. -/
  changes : Nat := 0

section Runs

variable (special? : Operation → Option SpecialCall) (identities : Nat → Identity)

/-- Gives a process the next of the given identities. -/
def Execution.changeIdentity (e : Execution) : Execution :=
  { e with live := { e.live with identity := identities e.changes }, changes := e.changes + 1 }

/-- Executes an operation. A routine acts on the counter, a call that changes the identity gives the
process the next of the given ones, and nothing else has an effect. -/
def Execution.step (e : Execution) (op : Operation) : Execution :=
  match op.event? with
  | some event => { e with counter := e.counter.apply e.live event }
  | none =>
    if op.routine? = none ∧ special? op = some .identityChange then e.changeIdentity identities
    else e

/-- Executes operations in order. -/
def Execution.run (e : Execution) (ops : List Operation) : Execution :=
  ops.foldl (step special? identities) e

/-- Enters an operation, and then the effect that it has itself. -/
def Walk.step (w : Walk) (op : Operation) : Walk :=
  let counted := w.account.credit 1
  match special? op with
  | some (.drop s) => { w with account := counted.remove s }
  | some .identityChange =>
    { account := counted.observe (identities w.changes), changes := w.changes + 1 }
  | _ => { w with account := counted }

/-- Enters operations in order. -/
def Walk.run (w : Walk) (ops : List Operation) : Walk :=
  ops.foldl (step special? identities) w

end Runs

/-- The counter of a process lags `n` operations behind what has been seen. -/
structure Execution.Behind (n : Nat) (e : Execution) (w : Walk) : Prop where
  current : e.counter.Current e.live
  account_eq : e.counter.account.credit n = w.account
  changes_eq : e.changes = w.changes

namespace Execution

variable {special? : Operation → Option SpecialCall} {identities : Nat → Identity} {e : Execution}
  {w : Walk} {op : Operation} {ops : List Operation} {n : Nat}

theorem step_of_event {event : Counter.Event} (h : op.event? = some event) :
    e.step special? identities op = { e with counter := e.counter.apply e.live event } := by
  rw [step, h]

theorem step_report :
    e.step special? identities (Routine.report.invoke []) = e := by
  rw [step, Operation.event?_invoke, Operation.routine?_invoke]
  rfl

/-- An operation that calls no routine leaves all as it is unless it changes the identity. -/
theorem step_eq_self (hop : op.routine? = none) (h : special? op ≠ some .identityChange) :
    e.step special? identities op = e := by
  rw [step, Operation.event?_eq_none hop]
  exact if_neg fun hboth => h hboth.2

/-- A call of a routine that brings the counter up to what is seen. -/
theorem behind_of_event {event : Counter.Event} (hcurrent : e.counter.Current e.live)
    (hop : op.event? = some event)
    (haccount : (e.counter.apply e.live event).account = w.account)
    (hchanges : e.changes = w.changes) : Behind 0 (e.step special? identities op) w := by
  rw [step_of_event hop]
  exact ⟨hcurrent.apply event, by rw [Account.credit_zero, haccount], hchanges⟩

/-- The call for a window that closes without an effect of its own. -/
theorem Behind.count (h : Behind n e w) (hn : n + 1 < UInt32.size)
    (hstep : w.step special? identities op = { w with account := w.account.credit 1 }) :
    Behind 0 (e.step special? identities (Routine.count.invoke [PlannedCall.countArg (n + 1)]))
      (w.step special? identities op) := by
  rw [hstep]
  refine behind_of_event h.current (Operation.event?_countArg hn .count) ?_ h.changes_eq
  rw [Counter.apply, h.current.account_count, ← h.account_eq, Account.credit_credit]

/-- A special call and the calls around it bring the counter up to what is seen. -/
theorem Behind.around (h : Behind n e w) (hn : n + 1 < UInt32.size) (hop : op.routine? = none)
    {special : SpecialCall} (hspecial : special? op = some special) :
    Behind 0 (e.run special? identities (BlockPlan.around (n + 1) op special))
      (w.step special? identities op) := by
  have hself : special ≠ .identityChange → ∀ e', step special? identities e' op = e' :=
    fun hne e' => step_eq_self hop fun h => hne (Option.some.inj (hspecial.symm.trans h))
  have hcount : w.step special? identities op = { w with account := w.account.credit 1 } →
      Behind 0 (e.step special? identities (Routine.count.invoke [PlannedCall.countArg (n + 1)]))
        (w.step special? identities op) := h.count hn
  cases special with
  | drop s =>
    have hevent := Operation.event?_countArg_bits hn .countDrop s
    rw [Routine.event?, CapabilitySet.ofBitsTruncate_bits] at hevent
    simp only [BlockPlan.around, run, List.foldl_cons, List.foldl_nil]
    rw [hself SpecialCall.noConfusion, Walk.step, hspecial]
    refine behind_of_event h.current hevent ?_ h.changes_eq
    rw [Counter.apply, h.current.account_drop, ← h.account_eq, Account.credit_credit]
  | duplicate =>
    have hlevel := hcount (by rw [Walk.step, hspecial])
    simp only [BlockPlan.around, run, List.foldl_cons, List.foldl_nil]
    rw [hself SpecialCall.noConfusion]
    refine behind_of_event hlevel.current (Operation.event?_invoke .announceFork []) ?_
      hlevel.changes_eq
    rw [← hlevel.account_eq, Account.credit_zero]
    rfl
  | replace =>
    simp only [BlockPlan.around, run, List.foldl_cons, List.foldl_nil]
    rw [hself SpecialCall.noConfusion, step_report]
    exact hcount (by rw [Walk.step, hspecial])
  | identityChange =>
    -- The call comes after the operation: the counter sees the identity that the process has then.
    have hmoved : e.step special? identities op = e.changeIdentity identities := by
      rw [step, Operation.event?_eq_none hop]
      exact if_pos ⟨hop, hspecial⟩
    have hcurrent :
        (e.changeIdentity identities).counter.Current (e.changeIdentity identities).live :=
      ⟨h.current.wellFormed, h.current.started, h.current.pid_eq⟩
    simp only [BlockPlan.around, run, List.foldl_cons, List.foldl_nil]
    rw [hmoved, Walk.step, hspecial]
    refine behind_of_event hcurrent (Operation.event?_countArg hn .countIdentity) ?_ ?_
    · rw [Counter.apply, hcurrent.account_identityChanged, ← h.account_eq, Account.credit_credit,
        ← h.changes_eq]
      rfl
    · rw [← h.changes_eq]
      rfl

/-- Running the calls in place, the counter lags behind by the open window and is level with what
has been seen when the last window is closed. -/
theorem Behind.run_weave (h : Behind n e w) (hend : ops = [] → n = 0)
    (hn : n + ops.length < UInt32.size) (hops : ∀ op ∈ ops, op.routine? = none) :
    Behind 0 (e.run special? identities (BlockPlan.weave special? n ops))
      (w.run special? identities ops) := by
  -- Induction on the operations. The open window carries it: `n` operations have been seen that the
  -- counter lacks, and none are left over, since the last operation closes the window.
  induction ops generalizing n e w with
  | nil =>
    rw [← hend rfl]
    exact h
  | cons op ops ih =>
    have hop := hops op List.mem_cons_self
    have hrest : ∀ op ∈ ops, op.routine? = none :=
      fun op hop => hops op (List.mem_cons_of_mem _ hop)
    have hlength : n + 1 + ops.length < UInt32.size := by
      rw [List.length_cons] at hn
      omega
    have hwindow : n + 1 < UInt32.size := by omega
    rw [BlockPlan.weave]
    cases hspecial : special? op with
    | some special =>
      simp only [run, List.foldl_append]
      exact ih (h.around hwindow hop hspecial) (fun _ => rfl) (by omega) hrest
    | none =>
      have hstep : w.step special? identities op = { w with account := w.account.credit 1 } := by
        rw [Walk.step, hspecial]
      have hself : ∀ e', step special? identities e' op = e' := fun e' =>
        step_eq_self hop (by simp [hspecial])
      by_cases hlast : ops = []
      · subst hlast
        simp only [reduceIte]
        rw [run, List.foldl_cons, List.foldl_cons, hself]
        exact h.count hwindow hstep
      · simp only [if_neg hlast]
        rw [run, List.foldl_cons, hself]
        refine ih ⟨h.current, ?_, ?_⟩ (fun hnil => absurd hnil hlast) hlength hrest
        · rw [hstep, ← h.account_eq, Account.credit_credit]
        · rw [hstep, h.changes_eq]

theorem run_append (e : Execution) (ops rest : List Operation) :
    e.run special? identities (ops ++ rest) =
      (e.run special? identities ops).run special? identities rest :=
  List.foldl_append

/-- Operations that are no calls leave all as it is. -/
theorem run_eq_self (hops : ∀ op ∈ ops, op.routine? = none)
    (hspecial : ∀ op ∈ ops, special? op ≠ some .identityChange) :
    e.run special? identities ops = e := by
  induction ops with
  | nil => rfl
  | cons op ops ih =>
    rw [run, List.foldl_cons,
      step_eq_self (hops op List.mem_cons_self) (hspecial op List.mem_cons_self)]
    exact ih (fun op hop => hops op (List.mem_cons_of_mem _ hop))
      fun op hop => hspecial op (List.mem_cons_of_mem _ hop)

end Execution

namespace BlockPlan

variable {settings : Settings} {procedure : String} {b : Block} {plan : BlockPlan}

/-- A process that runs through a counted block has the account in its counter that comes from
entering each operation of the block as it is executed. -/
theorem account_of_counted_block (hplan : ofBlock settings procedure b = .ok plan)
    (hlength : b.operations.length < UInt32.size)
    (hroutines : ∀ c ∈ b.calls, ∀ r : Routine, c.target? ≠ some r.name)
    (events : List (Host × Counter.Event)) (hstarted : (Counter.fresh.run events).started = true)
    (live : Host) (hpid : live.pid = (Counter.fresh.run events).pid)
    (identities : Nat → Identity) :
    let counter := Counter.fresh.run events
    let special? := Operation.special? settings ⟨procedure, b.label⟩
    (Execution.run special? identities { counter, live } plan.result.operations).counter.account =
      (Walk.run special? identities { account := counter.account } b.live).account := by
  intro counter special?
  have hroutine : ∀ op ∈ b.operations, op.routine? = none := fun op hop =>
    Operation.routine?_eq_none fun c hc => hroutines c (List.mem_filterMap.2 ⟨op, hop, hc⟩)
  have hidle : ∀ op ∈ b.idle, special? op ≠ some .identityChange := by
    intro op hop
    simp [special?, Operation.special?, Block.call?_of_mem_idle hop]
  rw [← b.live_append_idle] at hroutine hlength
  obtain ⟨hliveOps, hidleOps⟩ := List.forall_mem_append.1 hroutine
  have hlive : 0 + b.live.length < UInt32.size := by
    rw [List.length_append] at hlength
    omega
  have hstart : Execution.Behind 0 { counter, live } { account := counter.account } :=
    ⟨⟨Counter.wellFormed_fresh.run events, hstarted, hpid⟩, Account.credit_zero _, rfl⟩
  have hend : Execution.Behind 0
      (Execution.run special? identities { counter, live } (weave special? 0 b.live))
      (Walk.run special? identities { account := counter.account } b.live) :=
    hstart.run_weave (fun _ => rfl) hlive hliveOps
  rw [operations_result hplan, Execution.run_append, Execution.run_eq_self hidleOps hidle,
    ← hend.account_eq, Account.credit_zero]

/-- A block that gives a capability up, changes its identity twice, and ends where control never
comes. -/
def sampleBlock : Block where
  label := "leave"
  operations := [.phi, .other "add", .call (.direct "priv_remove" [.i32 1, .i32 7]),
    .call (.direct "setuid" []), .call (.direct "setgid" []), .call (.direct "fork" []),
    .call (.direct "execve" []), .other "store", .unreachable]

/-- The set-up of a counter with two capabilities. -/
def sampleEvents : List (Host × Counter.Event) :=
  [({ pid := 7 }, .start (.ofList [.chown, .setuid]))]

/-- Three operations run with both capabilities, one without the second, and four under the new
identity. -/
theorem account_of_counted_block_sample : ∃ plan, ofBlock {} "main" sampleBlock = .ok plan ∧
    (Execution.run (Operation.special? {} ⟨"main", "leave"⟩) (fun _ => { ruid := 1000 })
      { counter := Counter.fresh.run sampleEvents, live := { pid := 7 } }
      plan.result.operations).counter.account =
      { total := 8
        set := .ofList [.chown]
        identity := { ruid := 1000 }
        ledger := [⟨.ofList [.chown, .setuid], {}, 3⟩, ⟨.ofList [.chown], {}, 1⟩,
          ⟨.ofList [.chown], { ruid := 1000 }, 4⟩] } := by
  have hroutines : ∀ r : Routine, ∀ c ∈ sampleBlock.calls, c.target? ≠ some r.name := by
    intro r
    cases r <;> decide
  refine ⟨_, rfl, ?_⟩
  refine (account_of_counted_block (b := sampleBlock) rfl (by decide)
    (fun c hc r => hroutines r c hc) sampleEvents rfl { pid := 7 } rfl
    fun _ => { ruid := 1000 }).trans ?_
  decide +kernel

end BlockPlan

end LeastPrivilege
