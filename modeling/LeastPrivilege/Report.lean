import LeastPrivilege.CallGraph.OfProgram
import LeastPrivilege.Json.Printer
import LeastPrivilege.Requirement.Local
import LeastPrivilege.Requirement.Propagation

/-!
# Reports

The requirements of all definitions of a program, as a table for readers or as JSON.
-/

namespace LeastPrivilege

/-- What one procedure requires. -/
structure Report.Row where
  name : String
  /-- What it raises or lowers itself. -/
  direct : CapabilitySet
  /-- What it requires together with all that it may call. -/
  transitive : CapabilitySet
  /-- Whether it can be entered from outside. -/
  externallyCallable : Bool
  deriving DecidableEq, Repr

/-- What a program requires. -/
structure Report where
  program : String
  entry : String
  iterations : UInt64
  rows : List Report.Row
  unknownCallees : CapabilitySet
  unknownCallers : CapabilitySet
  deriving DecidableEq, Repr

namespace Report

/-- The report on what has been found. Only definitions have rows. -/
def ofPropagation (program entry : String) (direct : LocalRequirements) (r : Propagation) :
    Report where
  program
  entry
  iterations := .ofNat r.iterations
  rows := direct.procedures.procedures.map fun (name, s) =>
    { name
      direct := s
      transitive := r.requirements.getD (.procedure name) s
      externallyCallable := name ∈ r.externallyCallable }
  unknownCallees := r.unknownCallees
  unknownCallers := r.unknownCallers

namespace Row

/-- The fields of a row. -/
def toJson (r : Row) : Json :=
  .record [("name", .text r.name), ("direct", r.direct.toJson),
    ("transitive", r.transitive.toJson), ("externally_callable", .bool r.externallyCallable)]

/-- The row that a JSON value stands for. -/
def ofJson? (v : Json) : Option Row := do
  let fields ← v.toFields? ["name", "direct", "transitive", "externally_callable"]
  let name ← Json.field? fields "name" Json.toText?
  let direct ← Json.field? fields "direct" CapabilitySet.ofJson?
  let transitive ← Json.field? fields "transitive" CapabilitySet.ofJson?
  let externallyCallable ← Json.field? fields "externally_callable" Json.toBool?
  return { name, direct, transitive, externallyCallable }

/-- The name, marked with a star if the procedure can be entered from outside. -/
def shownName (r : Row) : String :=
  if r.externallyCallable then r.name ++ "*" else r.name

end Row

/-- The fields of a report. -/
def toJson (r : Report) : Json :=
  .record [("module", .text r.program), ("entry", .text r.entry),
    ("iterations", .nat r.iterations.toNat), ("procedures", .array (r.rows.map Row.toJson)),
    ("unknown_callees", r.unknownCallees.toJson), ("unknown_callers", r.unknownCallers.toJson)]

/-- The report that a JSON value stands for. -/
def ofJson? (v : Json) : Option Report := do
  let fields ← v.toFields?
    ["module", "entry", "iterations", "procedures", "unknown_callees", "unknown_callers"]
  let program ← Json.field? fields "module" Json.toText?
  let entry ← Json.field? fields "entry" Json.toText?
  let iterations ← Json.field? fields "iterations" Json.toWord?
  let rows ← Json.field? fields "procedures" (Json.toList? Row.ofJson?)
  let unknownCallees ← Json.field? fields "unknown_callees" CapabilitySet.ofJson?
  let unknownCallers ← Json.field? fields "unknown_callers" CapabilitySet.ofJson?
  return { program, entry, iterations, rows, unknownCallees, unknownCallers }

/-- The report as JSON text. -/
def print (r : Report) : String :=
  r.toJson.pretty

/-- Blanks that fill a text up to a number of characters. -/
def fill (width : Nat) (s : String) : String :=
  String.ofList (List.replicate (width - s.length) ' ')

/-- A line of the table: the first column flush left, the two numbers flush right. -/
def line (width : Nat) (name direct transitive set : String) : String :=
  name ++ fill width name ++ " " ++ fill 6 direct ++ direct ++ " " ++ fill 10 transitive ++
    transitive ++ "  " ++ set ++ "\n"

/-- The line above and below the rows. -/
def rule : String :=
  String.ofList (List.replicate 72 '─') ++ "\n"

/-- The width of the first column: room for each name and its star, counted in bytes, and for the
heading. -/
def nameWidth (r : Report) : Nat :=
  (r.rows.map fun row => row.name.utf8ByteSize + 1).foldl max "Procedure".length

/-- The report as a table. -/
def render (r : Report) : String :=
  let width := r.nameWidth
  let heading := "Capability requirements for " ++ r.program ++ " (entry: " ++ r.entry ++ ", " ++
    toString r.iterations.toNat ++ " iterations)\n"
  let rows := r.rows.map fun row =>
    line width row.shownName (toString row.direct.size) (toString row.transitive.size)
      row.transitive.render
  let note := if r.rows.any Row.externallyCallable then "(* externally callable)\n" else ""
  heading ++ rule ++ line width "Procedure" "Direct" "Transitive" "Capabilities" ++
    String.join rows ++ rule ++ "unknown callees: " ++ r.unknownCallees.render ++ "\n" ++
    "unknown callers: " ++ r.unknownCallers.render ++ "\n" ++ note

end Report

/-- What the procedures of a program require, given what each requires itself. -/
def Propagation.ofProgram (settings : Settings) (p : Program) (direct : LocalRequirements)
    (resolver : Resolver) : Propagation :=
  .run { graph := .ofProgram settings p, resolver, entry := settings.entry,
         direct := direct.procedures }

/-- The report on a program. -/
def Report.ofProgram (settings : Settings) (p : Program) (resolver : Resolver) :
    Except Error Report := do
  let direct ← LocalRequirements.ofProgram settings p
  return .ofPropagation p.name settings.entry direct (.ofProgram settings p direct resolver)

end LeastPrivilege
