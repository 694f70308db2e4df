import LeastPrivilege.Json.Decode
import Std.Data.ExtTreeMap

/-!
# Targets of calls through pointers

What is known about where a call through a pointer can lead. Either all targets of a call site are
known, or none are.
-/

namespace LeastPrivilege

/-- All targets of the call through a pointer that a procedure makes at a site, if known. -/
abbrev Resolver := String → UInt32 → Option (List String)

/-- Nothing is known. -/
def Resolver.unknown : Resolver :=
  fun _ _ => none

/-- A call through a pointer: the procedure that makes it and the number of the site. -/
structure CallSite where
  caller : String
  site : UInt32
  deriving DecidableEq, Repr

namespace CallSite

instance : Ord CallSite where
  compare := compareLex (compareOn caller) (compareOn site)

instance : Std.TransOrd CallSite :=
  inferInstanceAs (Std.TransCmp (compareLex (compareOn caller) (compareOn site)))

instance : Std.LawfulEqOrd CallSite where
  eq_of_compare {a b} h := by
    have hboth := compareLex_eq_eq.1 h
    cases a
    cases b
    simp_all [compareOn]

end CallSite

/-- The call sites whose targets are known. -/
abbrev CallTargets := Std.ExtTreeMap CallSite (List String)

namespace CallTargets

/-- The knowledge that a table holds. -/
def resolver (t : CallTargets) : Resolver :=
  fun caller site => t[(⟨caller, site⟩ : CallSite)]?

/-- One call site with its targets. -/
def entryOfJson? (v : Json) : Option (CallSite × List String) := do
  let fields ← v.toFields? ["caller", "site", "targets"]
  let caller ← Json.field? fields "caller" Json.toText?
  let site ← Json.field? fields "site" Json.toWord32?
  let targets ← Json.field? fields "targets" (Json.toList? Json.toText?)
  return (⟨caller, site⟩, targets)

/-- The table that a JSON value stands for. Of two entries for a call site the later one counts. -/
def ofJson? (v : Json) : Option CallTargets :=
  (v.toList? entryOfJson?).map fun entries =>
    entries.foldl (fun t entry => t.insert entry.1 entry.2) ∅

end CallTargets

end LeastPrivilege
