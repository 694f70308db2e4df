import LeastPrivilege.Program.Signature

/-!
# Programs

A program is one compilation unit: procedures made of labelled blocks, and blocks made of
operations, of which the last one ends the block. Calls and their operands are kept in full; all
other operations only by name.
-/

namespace LeastPrivilege

/-- Whether a procedure can be called from outside the program. -/
inductive Linkage where
  | external
  | internal
  deriving DecidableEq, Repr

/-- An operand of a call. -/
inductive Operand where
  /-- An integer literal of a given number of bits. -/
  | literal (width : UInt8) (value : UInt64)
  /-- The address of a procedure. -/
  | procedure (name : String)
  /-- A value that is not constant. -/
  | value (name : String)
  deriving DecidableEq, Repr

namespace Operand

/-- A literal of 32 bits. -/
def i32 (n : UInt32) : Operand :=
  .literal 32 n.toUInt64

/-- A literal of 64 bits. -/
def i64 (n : UInt64) : Operand :=
  .literal 64 n

/-- The value of a literal. -/
def literal? : Operand → Option UInt64
  | .literal _ n => some n
  | _ => none

/-- The procedure whose address an operand is. -/
def procedure? : Operand → Option String
  | .procedure name => some name
  | _ => none

end Operand

/-- What a call calls: a procedure by name, or a pointer at a numbered call site. -/
inductive Callee where
  | direct (name : String)
  | indirect (site : UInt32)
  deriving DecidableEq, Repr

/-- A call with its operands. -/
structure Call where
  callee : Callee
  args : List Operand := []
  deriving DecidableEq, Repr

namespace Call

/-- A call of a procedure by name. -/
def direct (name : String) (args : List Operand) : Call :=
  ⟨.direct name, args⟩

/-- The procedure that is called by name. -/
def target? (c : Call) : Option String :=
  match c.callee with
  | .direct name => some name
  | .indirect _ => none

/-- Whether a given procedure is called by name. -/
def calls (c : Call) (name : String) : Bool :=
  c.target? == some name

end Call

/-- An operation of a block. -/
inductive Operation where
  /-- A header, which belongs in front of all other operations. -/
  | phi
  | call (c : Call)
  | other (opcode : String)
  | branch (targets : List String)
  | ret
  /-- The end of a block that control never reaches. -/
  | unreachable
  deriving DecidableEq, Repr

namespace Operation

/-- Whether an operation ends a block. -/
def isTerminator : Operation → Bool
  | branch _ => true
  | ret => true
  | unreachable => true
  | _ => false

/-- Whether an operation is a header. -/
def isHeader : Operation → Bool
  | phi => true
  | _ => false

/-- The call that an operation is. -/
def call? : Operation → Option Call
  | call c => some c
  | _ => none

end Operation

/-- The name of a block: its procedure and its label. -/
structure BlockRef where
  procedure : String
  block : String
  deriving DecidableEq, Repr

namespace BlockRef

/-- Blocks are ordered by procedure and then by label. -/
instance : Ord BlockRef where
  compare := compareLex (compareOn procedure) (compareOn block)

/-- The two names with a stroke between them. -/
def render (r : BlockRef) : String :=
  r.procedure ++ "/" ++ r.block

end BlockRef

/-- A labelled list of operations. -/
structure Block where
  label : String
  operations : List Operation := []
  deriving DecidableEq, Repr

namespace Block

/-- The operation that ends the block, if the last one does. -/
def terminator? (b : Block) : Option Operation :=
  b.operations.getLast?.filter Operation.isTerminator

/-- The position of the operation that ends the block. -/
def terminatorIndex? (b : Block) : Option Nat :=
  b.terminator?.map fun _ => b.operations.length - 1

/-- Whether the block ends where control never comes. -/
def endsUnreachable (b : Block) : Bool :=
  b.terminator? == some .unreachable

/-- The number of headers in front of the first other operation. -/
def headerCount (b : Block) : Nat :=
  (b.operations.takeWhile Operation.isHeader).length

/-- The calls of the block in order. -/
def calls (b : Block) : List Call :=
  b.operations.filterMap Operation.call?

end Block

/-- A procedure. One without blocks is only declared. -/
structure Procedure where
  name : String
  signature : Signature := {}
  linkage : Linkage := .external
  blocks : List Block := []
  deriving DecidableEq, Repr

namespace Procedure

/-- A procedure without a body. -/
def declare (name : String) (signature : Signature) : Procedure :=
  { name, signature }

/-- Whether the procedure has no body. -/
def isDeclaration (p : Procedure) : Bool :=
  p.blocks.isEmpty

/-- Whether the procedure has a body. -/
def isDefinition (p : Procedure) : Bool :=
  !p.isDeclaration

/-- The first block with a given label. -/
def block? (p : Procedure) (label : String) : Option Block :=
  p.blocks.find? (·.label == label)

/-- The calls of the procedure in order. -/
def calls (p : Procedure) : List Call :=
  p.blocks.flatMap Block.calls

end Procedure

/-- A compilation unit. -/
structure Program where
  name : String := ""
  procedures : List Procedure := []
  deriving DecidableEq, Repr

namespace Program

/-- The first procedure with a given name. -/
def procedure? (p : Program) (name : String) : Option Procedure :=
  p.procedures.find? (·.name == name)

/-- The procedures that have a body. -/
def definitions (p : Program) : List Procedure :=
  p.procedures.filter Procedure.isDefinition

/-- The first block under a given name. -/
def block? (p : Program) (ref : BlockRef) : Option Block :=
  (p.procedure? ref.procedure).bind (·.block? ref.block)

end Program

end LeastPrivilege
