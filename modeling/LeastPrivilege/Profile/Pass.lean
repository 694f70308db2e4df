import LeastPrivilege.Profile.Instrumentation
import LeastPrivilege.Program.Rewriting

/-!
# Instrumentation in place

All blocks are planned before anything changes. The counts and the names of the routines in use are
carried from window to window and from block to block. Then the routines in use are declared, each
block gets its calls, and the first block of the entry gets the hooks.
-/

namespace LeastPrivilege.Instrumentation

/-- What is carried from block to block: the counts so far, and the names of the routines in use. -/
structure Tally where
  stats : InstrumentStats
  used : Std.ExtTreeSet String

namespace Tally

/-- The tally before the first block. The routines of the hooks are in use anyway. -/
def start (initialSet : CapabilitySet) : Tally where
  stats := { initialSet }
  used := .ofList [Routine.start.name, Routine.report.name, Routine.atExit.name]

/-- Counts a block. -/
def countBlock (t : Tally) : Tally :=
  { t with stats.blocks := t.stats.blocks + 1 }

end Tally

/-- The plan for a block in the making: the insertions so far, where the open window starts, and the
tally. -/
structure Draft where
  insertions : List Insertion := []
  windowStart : Nat := 0
  tally : Tally

namespace Draft

/-- Queues the call of a routine. -/
def insert (d : Draft) (slot : Nat) (r : Routine) (args : List Operand) : Draft :=
  { d with insertions := d.insertions ++ [⟨slot, r.invoke args⟩] }

/-- Notes that a routine is in use. -/
def use (d : Draft) (r : Routine) : Draft :=
  { d with tally.used := d.tally.used.insert r.name }

/-- Changes the counts. -/
def count (d : Draft) (f : InstrumentStats → InstrumentStats) : Draft :=
  { d with tally.stats := f d.tally.stats }

/-- The calls for a special call at a position, with a count for the window that it closes. That the
report is in use has been noted before the first block. -/
def callAround (d : Draft) (position : Nat) (n : Operand) : SpecialCall → Draft
  | .drop s => d
    |>.insert position .countDrop [n, .i64 (.ofNat s.bits)]
    |>.use .countDrop
    |>.count fun stats => { stats with dropSites := stats.dropSites + 1 }
  | .duplicate => d
    |>.insert position .count [n]
    |>.insert position .announceFork []
    |>.use .count
    |>.use .announceFork
    |>.count fun stats => { stats with forkSites := stats.forkSites + 1 }
  | .replace => d
    |>.insert position .count [n]
    |>.insert position .report []
    |>.use .count
    |>.count fun stats => { stats with execSites := stats.execSites + 1 }
  | .identityChange => d
    |>.insert (position + 1) .countIdentity [n]
    |>.use .countIdentity
    |>.count fun stats => { stats with identitySites := stats.identitySites + 1 }

/-- Closes the open window with a special call at a position. -/
def close (d : Draft) (position : Nat) (special : SpecialCall) : Draft :=
  let d := d
    |>.callAround position (PlannedCall.countArg (position - d.windowStart + 1)) special
    |>.count fun stats => { stats with countingCalls := stats.countingCalls + 1 }
  { d with windowStart := position + 1 }

/-- Counts what is left of a block after the last window, unless nothing is. The marker of an
unreachable end is not counted, and the call comes before the last operation that is. -/
def finish (d : Draft) (b : Block) : Draft :=
  let terminator := b.operations.length - 1
  let tail := b.operations.length - d.windowStart
  let (position, n) := if b.endsUnreachable then (terminator - 1, tail - 1) else (terminator, tail)
  if 0 < n then
    d
    |>.insert position .count [PlannedCall.countArg n]
    |>.use .count
    |>.count fun stats => { stats with countingCalls := stats.countingCalls + 1 }
  else d

end Draft

/-- Closes a window at each special call among the operations from a position on. -/
def planSpecials (settings : Settings) (site : BlockRef) (position : Nat) :
    List Operation → Draft → Except Error Draft
  | [], d => .ok d
  | op :: ops, d => do
    let special? ← match op.call? with
      | some c => SpecialCall.classify settings site c
      | none => .ok none
    planSpecials settings site (position + 1) ops <|
      match special? with
      | some special => d.close position special
      | none => d

/-- A computation that plans and keeps the tally. -/
abbrev Planning := StateT Tally (Except Error)

/-- Plans a block, which has to end in a terminator. -/
def planBlock (settings : Settings) (procedure : String) (b : Block) : Planning (List Insertion) :=
  fun t => do
    if b.terminator?.isNone then throw (.missingTerminator procedure b.label)
    if BlockPlan.isDead b then return ([], t)
    let d ← planSpecials settings ⟨procedure, b.label⟩ 0 b.operations { tally := t }
    let d := d.finish b
    return (d.insertions, d.tally)

/-- Plans the blocks of a procedure in order, under their names. -/
def planProcedure (settings : Settings) (d : Procedure) :
    Planning (List (BlockRef × List Insertion)) :=
  d.blocks.mapM fun b => do
    let insertions ← planBlock settings d.name b
    modify Tally.countBlock
    return (⟨d.name, b.label⟩, insertions)

/-- Plans the blocks of all definitions in order. -/
def planProgram (settings : Settings) (p : Program) : Planning (List (BlockRef × List Insertion)) :=
  return (← p.definitions.mapM (planProcedure settings)).flatten

/-- The routines under some names with their signatures, in the order of the names. -/
def wanted (used : Std.ExtTreeSet String) : List (String × Signature) :=
  used.toList.filterMap fun name => (Routine.ofName? name).map fun r => (name, r.signature)

/-- Makes queued insertions in a block. -/
def insertQueued (_ : BlockRef) (insertions : List Insertion) (b : Block) : Unit × Block :=
  ((), b.insertAll insertions)

/-- Instruments a program in place. Once the signatures of the routines in use have been checked,
nothing that is left to do can fail. -/
def rewrite (settings : Settings) : Rewriting InstrumentStats := do
  Rewriting.inspect Program.check
  let entry ← Rewriting.inspect (entryBlock settings)
  let initialSet ← Rewriting.inspect (LocalRequirements.raisedAnywhere settings)
  let (planned, tally) ← Rewriting.inspect fun p =>
    (planProgram settings p).run (.start initialSet)
  Rewriting.inspect fun p => (wanted tally.used).forM fun r => p.checkSignature r.1 r.2
  (wanted tally.used).forM fun r => Rewriting.require r.1 r.2
  let _ ← Rewriting.editBlocks planned insertQueued
  Rewriting.editBlock entry fun b => ((), insertAfterHeaders (hooks tally.stats.initialSet) b)
  return tally.stats

end LeastPrivilege.Instrumentation
