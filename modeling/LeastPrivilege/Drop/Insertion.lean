import LeastPrivilege.Drop.Plan
import LeastPrivilege.Program.Edit
import LeastPrivilege.Program.Rewriting
import LeastPrivilege.Requirement.Local

/-!
# Insertion of drops

Calls that give up capabilities are put into the blocks that a plan names: before the operation that
ends the block, and after its headers. A block that is left alone is counted under the first reason
for it. The plan is checked as a whole, and a plan that does not fit changes nothing.
-/

namespace LeastPrivilege

/-- Why a planned drop is left out. -/
inductive DropSkip where
  /-- There is nothing to give up. -/
  | empty
  /-- A signal handler may run at any time. -/
  | signalHandler
  /-- Control never reaches the end of the block. -/
  | unreachable
  /-- The block only stops the program. -/
  | trap
  deriving DecidableEq, Repr

/-- How many drops were inserted, and how many were left out for which reason. -/
structure DropStats where
  insertedAtEnd : Nat := 0
  insertedAtStart : Nat := 0
  skippedSignalHandler : Nat := 0
  skippedUnreachable : Nat := 0
  skippedTrap : Nat := 0
  skippedEmpty : Nat := 0
  deriving DecidableEq, Repr

namespace DropStats

/-- The number of drops that were inserted. -/
def inserted (s : DropStats) : Nat :=
  s.insertedAtEnd + s.insertedAtStart

/-- The number of drops that were left out. -/
def skipped (s : DropStats) : Nat :=
  s.skippedSignalHandler + s.skippedUnreachable + s.skippedTrap + s.skippedEmpty

/-- The fields of the counts. -/
def toJson (s : DropStats) : Json :=
  .record [("inserted_at_end", .nat s.insertedAtEnd), ("inserted_at_start", .nat s.insertedAtStart),
    ("skipped_signal_handler", .nat s.skippedSignalHandler),
    ("skipped_unreachable", .nat s.skippedUnreachable), ("skipped_trap", .nat s.skippedTrap),
    ("skipped_empty", .nat s.skippedEmpty)]

end DropStats

/-- What decides whether a drop is inserted, apart from the block. -/
structure DropInserter where
  settings : Settings := {}
  /-- Whether a procedure is a signal handler. -/
  isHandler : String → Bool := fun _ => false

namespace DropInserter

/-- The signature of the procedure that gives capabilities up. -/
def removeSignature : Signature :=
  { params := [.i32], ret := .i32, variadic := true }

/-- Whether the first operation after the headers is a call that stops the program. -/
def isTrap (d : DropInserter) (b : Block) : Bool :=
  ((b.operations[b.headerCount]?).bind Operation.call?).any (·.calls d.settings.trapIntrinsic)

/-- Why a drop is left out of a block, if it is. -/
def skip? (d : DropInserter) (procedure : String) (s : CapabilitySet) (b : Block) :
    Option DropSkip :=
  if s = ∅ then some .empty
  else if d.isHandler procedure then some .signalHandler
  else if b.endsUnreachable then some .unreachable
  else if d.isTrap b then some .trap
  else none

/-- The operation that gives capabilities up. -/
def drop (d : DropInserter) (s : CapabilitySet) : Operation :=
  .call (.ofCapabilities d.settings.removePrimitive s)

/-- A block with a drop before the operation that ends it, unless the drop is left out. -/
def insertAtEnd (d : DropInserter) (procedure : String) (s : CapabilitySet) (b : Block) : Block :=
  match d.skip? procedure s b with
  | some _ => b
  | none =>
    { b with operations := b.operations.insertIdx (b.operations.length - 1) (d.drop s) }

/-- A block with a drop after its headers, unless the drop is left out. -/
def insertAtStart (d : DropInserter) (procedure : String) (s : CapabilitySet) (b : Block) : Block :=
  match d.skip? procedure s b with
  | some _ => b
  | none => { b with operations := b.operations.insertIdx b.headerCount (d.drop s) }

/-- A block after the drop that a plan asks for at its end, if it does. -/
def applyAtEnd (d : DropInserter) (plan : DropPlan) (ref : BlockRef) (b : Block) : Block :=
  match plan.atEnd[ref]? with
  | some s => d.insertAtEnd ref.procedure s b
  | none => b

/-- A block after both drops that a plan asks for. That at the end comes first, and that at the
start is decided on the block it leaves. -/
def applyPlan (d : DropInserter) (plan : DropPlan) (ref : BlockRef) (b : Block) : Block :=
  match plan.atStart[ref]? with
  | some s => d.insertAtStart ref.procedure s (d.applyAtEnd plan ref b)
  | none => d.applyAtEnd plan ref b

/-- The block that an entry of a plan names. It has to end in a terminator. -/
def findTarget (p : Program) (ref : BlockRef) : Except Error Block := do
  let b ← p.findBlock ref
  if b.terminator?.isNone then throw (.missingTerminator ref.procedure ref.block)
  return b

/-- Why each entry of a table is left out, if it is. The blocks are looked at after `before`. -/
def decisions (d : DropInserter) (p : Program) (before : BlockRef → Block → Block)
    (table : DropTable) : Except Error (List (Option DropSkip)) :=
  table.toList.mapM fun entry =>
    (findTarget p entry.1).map fun b => d.skip? entry.1.procedure entry.2 (before entry.1 b)

/-- The counts of the decisions. -/
def stats (atEnd atStart : List (Option DropSkip)) : DropStats where
  insertedAtEnd := atEnd.count none
  insertedAtStart := atStart.count none
  skippedSignalHandler := (atEnd ++ atStart).count (some .signalHandler)
  skippedUnreachable := (atEnd ++ atStart).count (some .unreachable)
  skippedTrap := (atEnd ++ atStart).count (some .trap)
  skippedEmpty := (atEnd ++ atStart).count (some .empty)

/-- Inserts all drops of a plan, and declares the procedure that gives capabilities up if it is
missing. -/
def run (d : DropInserter) (plan : DropPlan) (p : Program) :
    Except Error (Program × DropStats) := do
  p.check
  let atEnd ← d.decisions p (fun _ b => b) plan.atEnd
  let atStart ← d.decisions p (d.applyAtEnd plan) plan.atStart
  let declared ← p.require d.settings.removePrimitive removeSignature
  return (declared.mapBlocks (d.applyPlan plan), stats atEnd atStart)

/-- Puts a drop before the end of a block, or says why it is left out. -/
def dropAtEnd (d : DropInserter) (ref : BlockRef) (s : CapabilitySet) (b : Block) :
    Option DropSkip × Block :=
  (d.skip? ref.procedure s b, d.insertAtEnd ref.procedure s b)

/-- Puts a drop after the headers of a block, or says why it is left out. -/
def dropAtStart (d : DropInserter) (ref : BlockRef) (s : CapabilitySet) (b : Block) :
    Option DropSkip × Block :=
  (d.skip? ref.procedure s b, d.insertAtStart ref.procedure s b)

/-- Checks that every block which a plan names is there and ends in a terminator. -/
def checkTargets (plan : DropPlan) (p : Program) : Except Error Unit :=
  (plan.atEnd.keys ++ plan.atStart.keys).forM fun ref => (findTarget p ref).map fun _ => ()

/-- Inserts all drops of a plan in place. Every block that the plan names is looked up before
anything changes, and again when its turn comes. -/
def rewrite (d : DropInserter) (plan : DropPlan) : Rewriting DropStats := do
  Rewriting.inspect Program.check
  Rewriting.inspect (checkTargets plan)
  Rewriting.require d.settings.removePrimitive removeSignature
  let atEnd ← Rewriting.editBlocks plan.atEnd.toList d.dropAtEnd
  let atStart ← Rewriting.editBlocks plan.atStart.toList d.dropAtStart
  return stats atEnd atStart

end DropInserter

end LeastPrivilege
