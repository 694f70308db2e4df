import LeastPrivilege.Json.Decode
import LeastPrivilege.Json.Printer
import LeastPrivilege.Json.Reader
import LeastPrivilege.Program.Lookup

/-!
# Programs in JSON

Each part of a program has a JSON form. Fields that equal their defaults may be left out when a
program is read, and are written in full when it is printed.
-/

namespace LeastPrivilege

namespace ValueType

/-- The name of a type. -/
def toJson (t : ValueType) : Json :=
  .text t.name

/-- The type with a given name. -/
def ofJson? : Json → Option ValueType :=
  Json.toMember? (all.map fun t => (t.name, t))

end ValueType

namespace Signature

/-- The fields of a signature. -/
def toJson (s : Signature) : Json :=
  .record [("params", .array (s.params.map ValueType.toJson)), ("ret", s.ret.toJson),
    ("variadic", .bool s.variadic)]

/-- A signature takes nothing and returns nothing unless it says so. -/
def ofJson? (v : Json) : Option Signature := do
  let fields ← v.toFields? ["params", "ret", "variadic"]
  let params ← Json.fieldOr? fields "params" (Json.toList? ValueType.ofJson?) []
  let ret ← Json.fieldOr? fields "ret" ValueType.ofJson? .void
  let variadic ← Json.fieldOr? fields "variadic" Json.toBool? false
  return { params, ret, variadic }

end Signature

namespace Linkage

/-- The name of a linkage. -/
def toJson : Linkage → Json
  | external => .text "external"
  | internal => .text "internal"

/-- The linkage with a given name. -/
def ofJson? : Json → Option Linkage :=
  Json.toMember? [("external", external), ("internal", internal)]

end Linkage

namespace Operand

/-- An object with one field, named for the kind of operand. -/
def toJson : Operand → Json
  | literal width n =>
    .record [("int", .record [("width", .nat width.toNat), ("value", .nat n.toNat)])]
  | procedure name => .record [("proc_ref", .text name)]
  | value name => .record [("value", .text name)]

/-- The operand that a JSON value stands for. -/
def ofJson? (v : Json) : Option Operand := do
  match ← v.toVariant? with
  | ("int", body) =>
    let fields ← body.toFields? ["width", "value"]
    let width ← Json.field? fields "width" Json.toWord8?
    let n ← Json.field? fields "value" Json.toWord?
    return .literal width n
  | ("proc_ref", body) => return .procedure (← body.toText?)
  | ("value", body) => return .value (← body.toText?)
  | _ => none

end Operand

namespace Callee

/-- An object with one field, named for the kind of callee. -/
def toJson : Callee → Json
  | direct name => .record [("direct", .text name)]
  | indirect site => .record [("indirect", .record [("site", .nat site.toNat)])]

/-- The callee that a JSON value stands for. -/
def ofJson? (v : Json) : Option Callee := do
  match ← v.toVariant? with
  | ("direct", body) => return .direct (← body.toText?)
  | ("indirect", body) =>
    let fields ← body.toFields? ["site"]
    return .indirect (← Json.field? fields "site" Json.toWord32?)
  | _ => none

end Callee

namespace Call

/-- The fields of a call. -/
def fields (c : Call) : List (String × Json) :=
  [("callee", c.callee.toJson), ("args", .array (c.args.map Operand.toJson))]

/-- The object of the fields. -/
def toJson (c : Call) : Json :=
  .record c.fields

/-- The call that a JSON value stands for. -/
def ofJson? (v : Json) : Option Call := do
  let fields ← v.toFields? ["callee", "args"]
  let callee ← Json.field? fields "callee" Callee.ofJson?
  let args ← Json.fieldOr? fields "args" (Json.toList? Operand.ofJson?) []
  return { callee, args }

end Call

namespace Operation

/-- An object whose field `op` names the kind of operation. -/
def toJson : Operation → Json
  | phi => .record [("op", .text "phi")]
  | call c => .record (("op", .text "call") :: c.fields)
  | other opcode => .record [("op", .text "other"), ("opcode", .text opcode)]
  | branch targets => .record [("op", .text "br"), ("targets", .texts targets)]
  | ret => .record [("op", .text "ret")]
  | unreachable => .record [("op", .text "unreachable")]

/-- The kind that a JSON value names, and the value without it. In an object the field `op` names
it, wherever it stands; in an array the first item does. -/
def split? : Json → Option (String × Json)
  | .object fields =>
    match fields.partition fun field => field.1 == some "op" with
    | ([(_, kind)], others) => kind.toText?.map fun kind => (kind, .object others)
    | _ => none
  | .array (kind :: items) => kind.toText?.map fun kind => (kind, .array items)
  | _ => none

/-- An operation that has no fields. Unknown fields of an object are ignored. -/
def plain? (op : Operation) : Json → Option Operation
  | .object _ => some op
  | .array [] => some op
  | _ => none

/-- The operation that a JSON value stands for. -/
def ofJson? (v : Json) : Option Operation := do
  match ← split? v with
  | ("phi", body) => plain? .phi body
  | ("call", body) => return .call (← Call.ofJson? body)
  | ("other", body) =>
    let fields ← body.toFields? ["opcode"]
    return .other (← Json.field? fields "opcode" Json.toText?)
  | ("br", body) =>
    let fields ← body.toFields? ["targets"]
    return .branch (← Json.fieldOr? fields "targets" (Json.toList? Json.toText?) [])
  | ("ret", body) => plain? .ret body
  | ("unreachable", body) => plain? .unreachable body
  | _ => none

/-- How deep arrays and objects may be nested in an operation of a block, itself included. -/
def depthLimit : Nat := 121

/-- The operation of a block that a JSON value stands for. The whole value has to be sound, unknown
fields included. -/
def ofSound? (v : Json) : Option Operation := do
  guard (v.isSound depthLimit)
  ofJson? v

end Operation

namespace Block

/-- The fields of a block. -/
def toJson (b : Block) : Json :=
  .record [("label", .text b.label), ("ops", .array (b.operations.map Operation.toJson))]

/-- The block that a JSON value stands for. -/
def ofJson? (v : Json) : Option Block := do
  let fields ← v.toFields? ["label", "ops"]
  let label ← Json.field? fields "label" Json.toText?
  let operations ← Json.fieldOr? fields "ops" (Json.toList? Operation.ofSound?) []
  return { label, operations }

end Block

namespace Procedure

/-- The fields of a procedure. -/
def toJson (p : Procedure) : Json :=
  .record [("name", .text p.name), ("signature", p.signature.toJson),
    ("linkage", p.linkage.toJson), ("blocks", .array (p.blocks.map Block.toJson))]

/-- The procedure that a JSON value stands for. -/
def ofJson? (v : Json) : Option Procedure := do
  let fields ← v.toFields? ["name", "signature", "linkage", "blocks"]
  let name ← Json.field? fields "name" Json.toText?
  let signature ← Json.fieldOr? fields "signature" Signature.ofJson? {}
  let linkage ← Json.fieldOr? fields "linkage" Linkage.ofJson? .external
  let blocks ← Json.fieldOr? fields "blocks" (Json.toList? Block.ofJson?) []
  return { name, signature, linkage, blocks }

end Procedure

namespace Program

/-- The fields of a program. -/
def toJson (p : Program) : Json :=
  .record [("name", .text p.name), ("procedures", .array (p.procedures.map Procedure.toJson))]

/-- The program that a JSON value stands for. -/
def ofJson? (v : Json) : Option Program := do
  let fields ← v.toFields? ["name", "procedures"]
  let name ← Json.fieldOr? fields "name" Json.toText? ""
  let procedures ← Json.fieldOr? fields "procedures" (Json.toList? Procedure.ofJson?) []
  return { name, procedures }

/-- The text of a program. -/
def print (p : Program) : String :=
  p.toJson.pretty

end Program

end LeastPrivilege
