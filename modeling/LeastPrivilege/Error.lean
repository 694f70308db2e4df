import LeastPrivilege.Capability.Basic
import LeastPrivilege.Program.Signature

/-!
# Errors

The causes for which an analysis or a pass over a program gives up, and the sentence for each.
-/

namespace LeastPrivilege

/-- Why an operation failed. -/
inductive Error where
  /-- A capability index is too large. -/
  | capabilityOutOfRange (index : Nat)
  /-- A text names no capability. -/
  | unknownCapability (text : String)
  /-- A capability call has an operand that is not a literal. -/
  | nonConstantOperand (callee procedure block : String) (position : Nat)
  /-- A capability call announces another number of capabilities than it passes. -/
  | operandCountMismatch (callee procedure block : String) (declared actual : Nat)
  /-- A capability call has no operand at all. -/
  | missingOperandCount (callee procedure block : String)
  /-- The entry procedure has no definition. -/
  | missingEntry (name : String)
  /-- A procedure that is to be changed has no definition. -/
  | unknownProcedure (name : String)
  /-- A procedure has no block of that label. -/
  | unknownBlock (procedure block : String)
  /-- Two procedures have one name. -/
  | duplicateProcedure (name : String)
  /-- Two blocks of a procedure have one label. -/
  | duplicateBlock (procedure block : String)
  /-- A block does not end in a terminator. -/
  | missingTerminator (procedure block : String)
  /-- A procedure is present with another signature than the one needed. -/
  | signatureConflict (name : String) (existing requested : Signature)
  /-- The settings contradict themselves. -/
  | invalidSettings (reason : String)
  deriving DecidableEq, Repr

namespace Error

/-- The sentence shown for a cause. -/
def message : Error → String
  | capabilityOutOfRange index =>
    let size := Capability.count
    s!"capability index {index} is outside the universe of {size} capabilities"
  | unknownCapability text => s!"unknown capability name: {text}"
  | nonConstantOperand callee procedure block position =>
    s!"call to {callee} in {procedure}/{block} has a non-constant operand at position {position}"
  | operandCountMismatch callee procedure block declared actual =>
    s!"call to {callee} in {procedure}/{block} declares {declared} capabilities but passes {actual}"
  | missingOperandCount callee procedure block =>
    s!"call to {callee} in {procedure}/{block} has no operand count"
  | missingEntry name => s!"entry procedure `{name}` is not defined in this unit"
  | unknownProcedure name => s!"procedure `{name}` is not defined in this unit"
  | unknownBlock procedure block =>
    s!"block `{block}` does not exist in procedure `{procedure}`"
  | duplicateProcedure name => s!"procedure `{name}` appears more than once in this unit"
  | duplicateBlock procedure block =>
    s!"block label `{block}` appears more than once in procedure `{procedure}`"
  | missingTerminator procedure block =>
    s!"block `{block}` of procedure `{procedure}` has no terminator"
  | signatureConflict name existing requested =>
    let shown := existing.render
    let wanted := requested.render
    s!"procedure `{name}` is already declared with signature {shown}, requested {wanted}"
  | invalidSettings reason => s!"invalid configuration: {reason}"

end Error

end LeastPrivilege
