import LeastPrivilege.Capability.Set
import LeastPrivilege.Json.Decode
import LeastPrivilege.Text.Quoted

/-!
# Capabilities in JSON

A capability is a string that spells it, or its index. A set is a list of capabilities in any order,
and it is written as the list of the names in the order of the indices.
-/

namespace LeastPrivilege

/-- Why a JSON value is no capability or no set of them. -/
inductive CapabilityDecodeError where
  /-- A spelling or an index is wrong. -/
  | invalid (cause : Error)
  /-- An index is negative. -/
  | negativeIndex
  /-- A value has the wrong shape. -/
  | mismatch (found : Json) (expected : String)

namespace CapabilityDecodeError

/-- The kind of a value, with the value itself when it is short. -/
def describe : Json → String
  | .null => "null"
  | .bool b => if b then "boolean `true`" else "boolean `false`"
  | .number n =>
    if n.toWord?.isSome || n.isNegativeInteger then
      let digits := match n with
        | .integer negative magnitude => (if negative then "-" else "") ++ toString magnitude
        | .decimal .. => ""
      s!"integer `{digits}`"
    else
      let digits := Decimal.shortest (n.toFloat?.getD 0)
      s!"floating point `{digits}`"
  | .string s => "string " ++ Text.quoted (s.getD "")
  | .array _ => "sequence"
  | .object _ => "map"

/-- The sentence shown for a cause. -/
def message : CapabilityDecodeError → String
  | invalid cause => cause.message
  | negativeIndex => "number too small to fit in target type"
  | mismatch found expected =>
    let kind := describe found
    s!"invalid type: {kind}, expected {expected}"

end CapabilityDecodeError

namespace Capability

/-- The capability that a JSON value stands for. -/
def decode (v : Json) : Except CapabilityDecodeError Capability :=
  match v with
  | .string (some s) => (parse s).mapError .invalid
  | .number n =>
    match n.toWord? with
    | some w => (ofIndex w.toNat).mapError .invalid
    | none => .error (if n.isNegativeInteger then .negativeIndex else mismatch)
  | _ => .error mismatch
where
  mismatch := .mismatch v "a capability name or index"

end Capability

namespace CapabilitySet

/-- The set that a JSON value stands for, or the first thing that is wrong with it. -/
def decode : Json → Except CapabilityDecodeError CapabilitySet
  | .array items => (items.mapM Capability.decode).map ofList
  | v => .error (.mismatch v "a sequence")

/-- The set that a JSON value stands for. -/
def ofJson? (v : Json) : Option CapabilitySet :=
  (decode v).toOption

/-- The list of the names. -/
def toJson (s : CapabilitySet) : Json :=
  .texts s.names

end CapabilitySet

end LeastPrivilege
