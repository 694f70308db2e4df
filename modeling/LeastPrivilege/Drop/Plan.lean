import LeastPrivilege.Capability.Codec
import LeastPrivilege.Program.Lookup

/-!
# Drop plans

A plan says which capabilities are to be given up at the end and at the start of which blocks.
-/

namespace LeastPrivilege

/-- The capabilities to be given up in each block. -/
abbrev DropTable := Std.ExtTreeMap BlockRef CapabilitySet

namespace DropTable

/-- Joins a set to that of a block. -/
def add (t : DropTable) (ref : BlockRef) (s : CapabilitySet) : DropTable :=
  t.insert ref (t.getD ref ∅ ∪ s)

/-- One block with its set. -/
def entryOfJson? (v : Json) : Option (BlockRef × CapabilitySet) := do
  let fields ← v.toFields? ["procedure", "block", "capabilities"]
  let procedure ← Json.field? fields "procedure" Json.toText?
  let block ← Json.field? fields "block" Json.toText?
  let s ← Json.field? fields "capabilities" CapabilitySet.ofJson?
  return (⟨procedure, block⟩, s)

/-- The table that a list of entries stands for. Entries for one block are joined. -/
def ofJson? (v : Json) : Option DropTable :=
  (v.toList? entryOfJson?).map fun entries =>
    entries.foldl (fun t entry => t.add entry.1 entry.2) (∅ : DropTable)

end DropTable

/-- What is to be given up, at the end and at the start of blocks. -/
structure DropPlan where
  atEnd : DropTable := ∅
  atStart : DropTable := ∅

namespace DropPlan

/-- Whether the plan names no block. -/
def isEmpty (plan : DropPlan) : Bool :=
  plan.atEnd.isEmpty && plan.atStart.isEmpty

/-- The plan that a JSON value stands for. -/
def ofJson? (v : Json) : Option DropPlan := do
  let fields ← v.toFields? ["at_end", "at_start"]
  let atEnd ← Json.fieldOr? fields "at_end" DropTable.ofJson? ∅
  let atStart ← Json.fieldOr? fields "at_start" DropTable.ofJson? ∅
  return { atEnd, atStart }

end DropPlan

end LeastPrivilege
