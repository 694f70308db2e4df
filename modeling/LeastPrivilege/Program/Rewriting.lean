import LeastPrivilege.Program.Lookup

/-!
# Changing a program in place

A pass may change its program step by step. A step that fails ends the pass, and the program stays
as the steps before it have left it.
-/

namespace LeastPrivilege

/-- A computation that changes a program as it goes and may fail on the way. -/
abbrev Rewriting := EStateM Error Program

namespace Rewriting

/-- Looks something up in the program as it is now. -/
def inspect {α : Type} (look : Program → Except Error α) : Rewriting α := do
  match look (← get) with
  | .ok a => return a
  | .error e => throw e

/-- Makes sure that a procedure is present with a given signature. -/
def require (name : String) (signature : Signature) : Rewriting Unit := do
  set (← inspect (·.require name signature))

/-- Changes the block under a name, in a procedure that has a body, and hands over what the change
finds out. -/
def editBlock {α : Type} (ref : BlockRef) (edit : Block → α × Block) : Rewriting α := do
  let b ← inspect (·.findBlock ref)
  modify (·.modifyBlock ref fun b => (edit b).2)
  return (edit b).1

/-- Changes the blocks under the given names one after the other. -/
def editBlocks {α β : Type} (entries : List (BlockRef × β))
    (edit : BlockRef → β → Block → α × Block) : Rewriting (List α) :=
  entries.mapM fun entry => editBlock entry.1 (edit entry.1 entry.2)

end Rewriting

end LeastPrivilege
