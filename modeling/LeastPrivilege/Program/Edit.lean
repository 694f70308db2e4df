import LeastPrivilege.Program.Basic

/-!
# Insertion into a block

Insertions are collected against the positions of the unchanged block and then made all at once.
Slot `i` lies in front of operation `i`; a slot past the end lies after the last operation.
-/

namespace LeastPrivilege

/-- An operation to be inserted at a slot of a block. -/
structure Insertion where
  slot : Nat
  operation : Operation
  deriving DecidableEq, Repr

namespace Insertion

/-- Insertion right before the operation at a position. -/
def before (position : UInt64) (operation : Operation) : Insertion :=
  ⟨position.toNat, operation⟩

/-- Insertion right after the operation at a position. The next slot is counted in a word, so behind
the last position comes the first slot. -/
def after (position : UInt64) (operation : Operation) : Insertion :=
  ⟨(position + 1).toNat, operation⟩

/-- Merges insertions, sorted by slot, into the operations from a given position on. -/
def merge (position : Nat) : List Insertion → List Operation → List Operation
  | queue, [] => queue.map operation
  | queue, op :: ops =>
    (queue.takeWhile (·.slot ≤ position)).map operation ++
      op :: merge (position + 1) (queue.dropWhile (·.slot ≤ position)) ops

end Insertion

namespace Block

/-- Makes all insertions. Those of one slot keep their order. -/
def insertAll (b : Block) (insertions : List Insertion) : Block :=
  { b with
    operations :=
      Insertion.merge 0 (insertions.mergeSort fun i j => i.slot ≤ j.slot) b.operations }

/-- Inserts one operation before a position, which may be the end of the block but not past it. -/
def insertAt? (b : Block) (position : Nat) (op : Operation) : Option Block :=
  if position ≤ b.operations.length then
    some { b with operations := b.operations.insertIdx position op }
  else none

end Block

end LeastPrivilege
