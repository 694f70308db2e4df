import LeastPrivilege.Program.Lookup
import LeastPrivilege.Requirement.Table
import LeastPrivilege.Settings.Basic

/-!
# What a procedure requires itself

A call of a capability primitive passes a count and then as many capability indices, all of them
literals. What a procedure requires itself is what its own calls raise or lower.
-/

namespace LeastPrivilege

namespace Call

/-- The call of a primitive with a set: the number of members, then their indices, ascending. -/
def ofCapabilities (name : String) (s : CapabilitySet) : Call :=
  .direct name (.i32 (.ofNat s.size) :: s.indices.map fun i => .i32 (.ofNat i))

/-- The capability that the operand at a position names. -/
def capabilityOperand (callee : String) (site : BlockRef) (position : Nat) (arg : Operand) :
    Except Error Capability :=
  match arg.literal? with
  | none => .error (.nonConstantOperand callee site.procedure site.block position)
  | some index => Capability.ofIndex index.toNat

/-- The capabilities that the operands from a position on name. -/
def capabilityOperands (callee : String) (site : BlockRef) (position : Nat) :
    List Operand → Except Error (List Capability)
  | [] => .ok []
  | arg :: args => do
    let c ← capabilityOperand callee site position arg
    let cs ← capabilityOperands callee site (position + 1) args
    return c :: cs

/-- The set that a call of a primitive passes. The block in which the call stands is named in
errors. -/
def capabilities (c : Call) (site : BlockRef) : Except Error CapabilitySet :=
  let callee := c.target?.getD "<indirect>"
  match c.args with
  | [] => .error (.missingOperandCount callee site.procedure site.block)
  | count :: rest =>
    match count.literal? with
    | none => .error (.nonConstantOperand callee site.procedure site.block 0)
    | some declared =>
      if declared.toNat = rest.length then
        (capabilityOperands callee site 1 rest).map CapabilitySet.ofList
      else
        .error (.operandCountMismatch callee site.procedure site.block declared.toNat rest.length)

end Call

namespace Program

/-- The calls of all definitions in order, each with the block in which it stands. -/
def callSites (p : Program) : List (BlockRef × Call) :=
  p.definitions.flatMap fun procedure =>
    procedure.blocks.flatMap fun block =>
      block.calls.map fun c => (⟨procedure.name, block.label⟩, c)

end Program

/-- What the definitions of a program require themselves: in whole, and block by block for the
blocks that call a primitive. -/
structure LocalRequirements where
  procedures : RequirementTable := ∅
  blocks : Std.ExtTreeMap BlockRef CapabilitySet := ∅

namespace LocalRequirements

/-- Joins what one call requires. -/
def add (r : LocalRequirements) (site : BlockRef) (s : CapabilitySet) : LocalRequirements where
  procedures := r.procedures.add (.procedure site.procedure) s
  blocks := r.blocks.insert site (r.blocks.getD site ∅ ∪ s)

/-- Whether a call raises or lowers capabilities. -/
def isPrimitive (settings : Settings) (c : Call) : Bool :=
  c.calls settings.raisePrimitive || c.calls settings.lowerPrimitive

/-- The sets that the calls which pass a test hand over, with the blocks in which they stand. The
first call with bad operands is the error. -/
def setsOfCalls (p : Program) (test : Call → Bool) :
    Except Error (List (BlockRef × CapabilitySet)) :=
  (p.callSites.filter fun site => test site.2).mapM fun site =>
    (site.2.capabilities site.1).map fun s => (site.1, s)

/-- What each definition requires itself. -/
def ofProgram (settings : Settings) (p : Program) : Except Error LocalRequirements := do
  let sets ← setsOfCalls p (isPrimitive settings)
  let empty := p.definitions.foldl (fun t d => t.add (.procedure d.name) ∅) (∅ : RequirementTable)
  return sets.foldl (fun r site => r.add site.1 site.2) { procedures := empty }

/-- All that a program ever raises. -/
def raisedAnywhere (settings : Settings) (p : Program) : Except Error CapabilitySet := do
  let sets ← setsOfCalls p (·.calls settings.raisePrimitive)
  return sets.foldl (fun s site => s ∪ site.2) ∅

end LocalRequirements

end LeastPrivilege
