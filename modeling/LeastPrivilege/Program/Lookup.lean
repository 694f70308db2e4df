import LeastPrivilege.Error
import LeastPrivilege.Program.Basic
import Std.Data.ExtTreeMap
import Std.Data.ExtTreeSet

/-!
# Names in a program

The check that names are used once, finding and changing the block under a name, and declaring
procedures that are missing.
-/

namespace LeastPrivilege

instance : Std.TransOrd BlockRef :=
  inferInstanceAs
    (Std.TransCmp (compareLex (compareOn BlockRef.procedure) (compareOn BlockRef.block)))

instance : Std.LawfulEqOrd BlockRef where
  eq_of_compare {a b} h := by
    have hboth := compareLex_eq_eq.1 h
    cases a
    cases b
    simp_all [compareOn]

/-- The first item of a list that also stands earlier in it or among the items seen before. -/
def firstRepeat? (seen : List String) : List String → Option String
  | [] => none
  | x :: xs => if seen.contains x then some x else firstRepeat? (x :: seen) xs

/-- Changes the first item that passes a test. -/
def modifyFirst {α : Type} (p : α → Bool) (f : α → α) : List α → List α
  | [] => []
  | x :: xs => if p x then f x :: xs else x :: modifyFirst p f xs

namespace Program

/-- Checks that the names of the procedures differ, from those seen before too, and that the labels
differ within each procedure. -/
def checkProcedures (seen : List String) : List Procedure → Except Error Unit
  | [] => .ok ()
  | p :: ps =>
    if seen.contains p.name then .error (.duplicateProcedure p.name)
    else
      match firstRepeat? [] (p.blocks.map Block.label) with
      | some label => .error (.duplicateBlock p.name label)
      | none => checkProcedures (p.name :: seen) ps

/-- Checks that every name stands for one thing. The first violation is the error. -/
def check (p : Program) : Except Error Unit :=
  checkProcedures [] p.procedures

/-- The block under a name, in a procedure that has a body. -/
def findBlock (p : Program) (ref : BlockRef) : Except Error Block :=
  match (p.procedure? ref.procedure).filter Procedure.isDefinition with
  | none => .error (.unknownProcedure ref.procedure)
  | some procedure =>
    match procedure.block? ref.block with
    | none => .error (.unknownBlock ref.procedure ref.block)
    | some block => .ok block

/-- Changes the first block under a name. -/
def modifyBlock (p : Program) (ref : BlockRef) (f : Block → Block) : Program :=
  { p with
    procedures := modifyFirst (·.name == ref.procedure)
      (fun procedure =>
        { procedure with blocks := modifyFirst (·.label == ref.block) f procedure.blocks })
      p.procedures }

/-- Changes every block, knowing its name. -/
def mapBlocks (p : Program) (f : BlockRef → Block → Block) : Program :=
  { p with
    procedures := p.procedures.map fun procedure =>
      { procedure with
        blocks := procedure.blocks.map fun b => f ⟨procedure.name, b.label⟩ b } }

/-- Checks that a procedure, if it is present, has a given signature. -/
def checkSignature (p : Program) (name : String) (signature : Signature) : Except Error Unit :=
  match p.procedure? name with
  | none => .ok ()
  | some existing =>
    if existing.signature = signature then .ok ()
    else .error (.signatureConflict name existing.signature signature)

/-- Appends a declaration unless the procedure is present. -/
def declare (p : Program) (name : String) (signature : Signature) : Program :=
  match p.procedure? name with
  | some _ => p
  | none => { p with procedures := p.procedures ++ [Procedure.declare name signature] }

/-- Makes sure that a procedure is present with a given signature. -/
def require (p : Program) (name : String) (signature : Signature) : Except Error Program := do
  p.checkSignature name signature
  return p.declare name signature

/-- The procedures whose address a call in a definition passes on. -/
def addressTaken (p : Program) : Std.ExtTreeSet String :=
  .ofList ((p.definitions.flatMap Procedure.calls).flatMap fun c => c.args.filterMap
    Operand.procedure?)

end Program

end LeastPrivilege
