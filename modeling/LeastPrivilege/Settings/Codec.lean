import LeastPrivilege.Json.Decode
import LeastPrivilege.Settings.Basic
import LeastPrivilege.Toml.Reader

/-!
# Settings in JSON and TOML

Names that are left out keep their defaults.
-/

namespace LeastPrivilege.Settings

/-- The keys of the settings in their order. -/
def keys : List String :=
  ["entry", "raise_primitive", "lower_primitive", "remove_primitive", "trap_intrinsic",
    "signal_function", "fork_functions", "exec_functions", "identity_functions"]

/-- The fields of the settings. -/
def toJson (s : Settings) : Json :=
  .record [("entry", .text s.entry), ("raise_primitive", .text s.raisePrimitive),
    ("lower_primitive", .text s.lowerPrimitive), ("remove_primitive", .text s.removePrimitive),
    ("trap_intrinsic", .text s.trapIntrinsic), ("signal_function", .text s.signalFunction),
    ("fork_functions", .texts s.forkFunctions), ("exec_functions", .texts s.execFunctions),
    ("identity_functions", .texts s.identityFunctions)]

/-- The settings that two look-ups give, one for names and one for lists of names. Each takes a key
and the default for it. -/
def ofLookups? (name : String → String → Option String)
    (names : String → List String → Option (List String)) : Option Settings := do
  let default : Settings := {}
  return {
    entry := ← name "entry" default.entry
    raisePrimitive := ← name "raise_primitive" default.raisePrimitive
    lowerPrimitive := ← name "lower_primitive" default.lowerPrimitive
    removePrimitive := ← name "remove_primitive" default.removePrimitive
    trapIntrinsic := ← name "trap_intrinsic" default.trapIntrinsic
    signalFunction := ← name "signal_function" default.signalFunction
    forkFunctions := ← names "fork_functions" default.forkFunctions
    execFunctions := ← names "exec_functions" default.execFunctions
    identityFunctions := ← names "identity_functions" default.identityFunctions }

/-- The settings that a JSON value stands for. -/
def ofJson? (v : Json) : Option Settings := do
  let fields ← v.toFields? keys
  ofLookups? (fun key => Json.fieldOr? fields key Json.toText?)
    (fun key => Json.fieldOr? fields key (Json.toList? Json.toText?))

/-- The settings that the entries of a TOML document stand for. -/
def ofToml? (entries : Toml.Entries) : Option Settings :=
  ofLookups? (fun key => Toml.entryOr? entries key Toml.Item.toText?)
    (fun key => Toml.entryOr? entries key Toml.Item.toTexts?)

end LeastPrivilege.Settings
