import LeastPrivilege.Profile.Routine
import LeastPrivilege.Program.Edit
import LeastPrivilege.Requirement.Local

/-!
# Instrumentation

Calls are put into a program that count the operations it executes. A block is divided into windows
by the calls that change the process or its capabilities: each window is counted together with the
call that closes it, and what is left is counted before the block ends. The plan for a block says
what comes where; what becomes of a program is said in terms of the plans for all its blocks.
-/

namespace LeastPrivilege

/-- A call that closes a window. -/
inductive SpecialCall where
  /-- Gives capabilities up. -/
  | drop (s : CapabilitySet)
  /-- Duplicates the process. -/
  | duplicate
  /-- Replaces the program of the process. -/
  | replace
  /-- Changes the user or group of the process. -/
  | identityChange
  deriving DecidableEq, Repr

/-- What kind of special call a call is, if it is one. -/
def SpecialCall.classify (settings : Settings) (site : BlockRef) (c : Call) :
    Except Error (Option SpecialCall) :=
  match c.target? with
  | none => .ok none
  | some target =>
    if target = settings.removePrimitive then (c.capabilities site).map fun s => some (.drop s)
    else if settings.forkFunctions.contains target then .ok (some .duplicate)
    else if settings.execFunctions.contains target then .ok (some .replace)
    else if settings.identityFunctions.contains target then .ok (some .identityChange)
    else .ok none

/-- The operation that calls a routine. -/
def Routine.invoke (r : Routine) (args : List Operand) : Operation :=
  .call (.direct r.name args)

/-- A call of a routine that is to be inserted at a slot of a block. -/
structure PlannedCall where
  slot : Nat
  routine : Routine
  args : List Operand := []
  deriving DecidableEq, Repr

namespace PlannedCall

/-- The operation to be inserted. -/
def operation (c : PlannedCall) : Operation :=
  c.routine.invoke c.args

/-- The insertion of the operation. -/
def insertion (c : PlannedCall) : Insertion :=
  ⟨c.slot, c.operation⟩

/-- Whether the call counts operations. -/
def isCounting (c : PlannedCall) : Bool :=
  c.routine = .count || c.routine = .countDrop || c.routine = .countIdentity

/-- The operand that gives a count. -/
def countArg (n : Nat) : Operand :=
  .i32 (.ofNat n)

/-- The calls for a special call at a position, which closes a window of `n` operations. -/
def ofSpecial (position n : Nat) : SpecialCall → List PlannedCall
  | .drop s => [⟨position, .countDrop, [countArg n, .i64 (.ofNat s.bits)]⟩]
  | .duplicate => [⟨position, .count, [countArg n]⟩, ⟨position, .announceFork, []⟩]
  | .replace => [⟨position, .count, [countArg n]⟩, ⟨position, .report, []⟩]
  | .identityChange => [⟨position + 1, .countIdentity, [countArg n]⟩]

/-- The calls for the special calls of a block, where the first window starts at `start`. -/
def ofSpecials (start : Nat) : List (Nat × SpecialCall) → List PlannedCall
  | [] => []
  | (position, special) :: rest =>
    ofSpecial position (position - start + 1) special ++ ofSpecials (position + 1) rest

end PlannedCall

/-- A block, its special calls with their positions, and the calls to be inserted. -/
structure BlockPlan where
  block : Block
  specials : List (Nat × SpecialCall) := []
  calls : List PlannedCall := []
  deriving DecidableEq, Repr

namespace BlockPlan

/-- The special calls among the operations from a position on. -/
def findSpecials (settings : Settings) (site : BlockRef) (position : Nat) :
    List Operation → Except Error (List (Nat × SpecialCall))
  | [] => .ok []
  | op :: ops => do
    let special? ← match op.call? with
      | some c => SpecialCall.classify settings site c
      | none => .ok none
    let rest ← findSpecials settings site (position + 1) ops
    match special? with
    | some special => return (position, special) :: rest
    | none => return rest

/-- The number of operations that are executed when control runs through a block. -/
def executed (b : Block) : Nat :=
  if b.endsUnreachable then b.operations.length - 1 else b.operations.length

/-- Where the last window of a block starts. -/
def tailStart (specials : List (Nat × SpecialCall)) : Nat :=
  match specials.getLast? with
  | some (position, _) => position + 1
  | none => 0

/-- The call that counts what is left after the last special call, before the last operation that is
executed. -/
def tailCalls (b : Block) (specials : List (Nat × SpecialCall)) : List PlannedCall :=
  if tailStart specials < executed b then
    [⟨executed b - 1, .count, [PlannedCall.countArg (executed b - tailStart specials)]⟩]
  else []

/-- Whether no operation of a block is executed: it is unreachable and holds only headers. -/
def isDead (b : Block) : Bool :=
  b.endsUnreachable && b.operations.length - 1 ≤ b.headerCount

/-- The plan for a block, which has to end in a terminator. -/
def ofBlock (settings : Settings) (procedure : String) (b : Block) : Except Error BlockPlan := do
  if b.terminator?.isNone then throw (.missingTerminator procedure b.label)
  if isDead b then return { block := b }
  let specials ← findSpecials settings ⟨procedure, b.label⟩ 0 b.operations
  let calls := PlannedCall.ofSpecials 0 specials ++ tailCalls b specials
  return { block := b, specials, calls }

/-- The block with the calls inserted. -/
def result (plan : BlockPlan) : Block :=
  plan.block.insertAll (plan.calls.map PlannedCall.insertion)

end BlockPlan

/-- A procedure with the plans for its blocks. -/
structure ProcedurePlan where
  procedure : Procedure
  blocks : List BlockPlan
  deriving DecidableEq, Repr

namespace ProcedurePlan

/-- The plan for a procedure. -/
def ofProcedure (settings : Settings) (p : Procedure) : Except Error ProcedurePlan := do
  let blocks ← p.blocks.mapM (BlockPlan.ofBlock settings p.name)
  return { procedure := p, blocks }

/-- The procedure with the calls inserted. -/
def result (plan : ProcedurePlan) : Procedure :=
  { plan.procedure with blocks := plan.blocks.map BlockPlan.result }

end ProcedurePlan

/-- What an instrumentation found and did. -/
structure InstrumentStats where
  blocks : Nat := 0
  countingCalls : Nat := 0
  dropSites : Nat := 0
  forkSites : Nat := 0
  execSites : Nat := 0
  identitySites : Nat := 0
  initialSet : CapabilitySet
  deriving DecidableEq, Repr

namespace InstrumentStats

/-- The counts over all blocks. -/
def ofPlans (initialSet : CapabilitySet) (plans : List BlockPlan) : InstrumentStats :=
  let specials := plans.flatMap fun plan => plan.specials.map Prod.snd
  { blocks := plans.length
    countingCalls := (plans.flatMap BlockPlan.calls).countP PlannedCall.isCounting
    dropSites := specials.countP fun
      | .drop _ => true
      | _ => false
    forkSites := specials.count .duplicate
    execSites := specials.count .replace
    identitySites := specials.count .identityChange
    initialSet }

/-- The fields of the counts. -/
def toJson (s : InstrumentStats) : Json :=
  .record [("blocks", .nat s.blocks), ("counting_calls", .nat s.countingCalls),
    ("drop_sites", .nat s.dropSites), ("fork_sites", .nat s.forkSites),
    ("exec_sites", .nat s.execSites), ("identity_sites", .nat s.identitySites),
    ("initial_set", s.initialSet.toJson)]

end InstrumentStats

namespace Instrumentation

/-- The routines in the order in which they are declared, which is that of their names. -/
def declarationOrder : List Routine :=
  [.count, .countIdentity, .countDrop, .atExit, .announceFork, .start, .report]

/-- The routines that an instrumented program needs: those of the hooks, and those called. -/
def usedRoutines (plans : List BlockPlan) : List Routine :=
  let called := (plans.flatMap BlockPlan.calls).map PlannedCall.routine
  declarationOrder.filter fun r => [.start, .report, .atExit].contains r || called.contains r

/-- The operations that set the counter up and ask for its report at the end of the process. -/
def hooks (initialSet : CapabilitySet) : List Operation :=
  [Routine.start.invoke [.i64 (.ofNat initialSet.bits)],
    Routine.atExit.invoke [.procedure Routine.report.name]]

/-- A block with operations after its headers. -/
def insertAfterHeaders (ops : List Operation) (b : Block) : Block :=
  { b with
    operations := b.operations.take b.headerCount ++ ops ++ b.operations.drop b.headerCount }

/-- A procedure with a change to its first block. -/
def modifyEntryBlock (f : Block → Block) (p : Procedure) : Procedure :=
  { p with blocks := p.blocks.modifyHead f }

/-- Puts the counting calls into all definitions of a program and the hooks into its entry. -/
def run (settings : Settings) (p : Program) : Except Error (Program × InstrumentStats) := do
  p.check
  if ((p.procedure? settings.entry).filter Procedure.isDefinition).isNone then
    throw (.missingEntry settings.entry)
  let initialSet ← LocalRequirements.raisedAnywhere settings p
  let plans ← p.procedures.mapM (ProcedurePlan.ofProcedure settings)
  let blockPlans := plans.flatMap ProcedurePlan.blocks
  let used := usedRoutines blockPlans
  used.forM fun r => p.checkSignature r.name r.signature
  let counted := { p with procedures := plans.map ProcedurePlan.result }
  let hooked :=
    { counted with
      procedures := modifyFirst (·.name == settings.entry)
        (modifyEntryBlock (insertAfterHeaders (hooks initialSet))) counted.procedures }
  let declared := used.foldl (fun q r => q.declare r.name r.signature) hooked
  return (declared, .ofPlans initialSet blockPlans)

/-- The name of the first block of the entry, which has to have a body. -/
def entryBlock (settings : Settings) (p : Program) : Except Error BlockRef :=
  match (p.procedure? settings.entry).bind fun d =>
      d.blocks.head?.map fun b => BlockRef.mk d.name b.label with
  | some ref => .ok ref
  | none => .error (.missingEntry settings.entry)

end Instrumentation

end LeastPrivilege
