/-!
# Procedure signatures

The value types that a procedure takes and returns, and the text that shows a signature.
-/

namespace LeastPrivilege

/-- The type of a value that is passed to or returned from a procedure. -/
inductive ValueType where
  | void
  | i32
  | i64
  | ptr
  deriving DecidableEq, Repr

namespace ValueType

/-- The spelling of a type. -/
def name : ValueType → String
  | void => "void"
  | i32 => "i32"
  | i64 => "i64"
  | ptr => "ptr"

/-- Every type once. -/
def all : List ValueType :=
  [void, i32, i64, ptr]

end ValueType

/-- The types a procedure takes and returns; a variadic procedure takes more operands at will. -/
structure Signature where
  params : List ValueType := []
  ret : ValueType := .void
  variadic : Bool := false
  deriving DecidableEq, Repr

namespace Signature

/-- The return type, then the parameters in brackets: `i32 (i32, ...)`. -/
def render (s : Signature) : String :=
  let params := s.params.map ValueType.name ++ if s.variadic then ["..."] else []
  s.ret.name ++ " (" ++ ", ".intercalate params ++ ")"

end Signature

end LeastPrivilege
