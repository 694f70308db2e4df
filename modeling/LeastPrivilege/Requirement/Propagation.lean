import LeastPrivilege.CallGraph.Basic
import LeastPrivilege.CallGraph.Targets
import LeastPrivilege.Requirement.Table

/-!
# Propagation of requirements

A node requires what it requires itself and what the nodes require that it may call. Passes over
the graph carry requirements from callees to callers until a pass adds nothing. What the entry
of the program requires does not reach its callers.
-/

namespace LeastPrivilege

/-- What a propagation works on. -/
structure Propagation.Problem where
  graph : CallGraph
  resolver : Resolver
  entry : String
  /-- What each node requires itself. -/
  direct : RequirementTable

/-- The outcome of a propagation. -/
structure Propagation where
  /-- What each procedure requires. -/
  requirements : RequirementTable
  /-- The procedures that can be entered from outside, except the entry. -/
  externallyCallable : Std.ExtTreeSet String
  /-- The number of passes, the last one included, which changes nothing. -/
  iterations : Nat
  /-- What the code outside requires that the program may call. -/
  unknownCallees : CapabilitySet
  /-- What the code outside requires that may call the program. -/
  unknownCallers : CapabilitySet

namespace Propagation

/-- Joins a set to one that is being collected, and notes whether that adds anything. -/
def join (collected : CapabilitySet × Bool) (s : CapabilitySet) : CapabilitySet × Bool :=
  let (joined, grown) := collected.1.unionWith s
  (joined, collected.2 || grown)

/-- The state of a pass. The input of a node is what calling it may require, and its output is what
it and all that it may call require. -/
structure Sweep where
  input : RequirementTable
  output : RequirementTable
  /-- Whether anything has been added since the pass began. -/
  changed : Bool := false

/-- Joins sets to the output of a node, and then the output to its input. -/
def Sweep.update (s : Sweep) (n : Node) (sets : List CapabilitySet) : Sweep :=
  let (output, changed) := sets.foldl join (s.output.requirement n, s.changed)
  let (input, changed) := join (s.input.requirement n, changed) output
  { input := s.input.insert n input, output := s.output.insert n output, changed }

namespace Problem

/-- The nodes to which a call leads. The entry is never one of them. -/
def successors (q : Problem) (n : Node) (e : CallEdge) : List Node :=
  match e.callee with
  | .unknownCallers => []
  | .unknownCallees =>
    match n.procedure?, e.site with
    | some caller, some site =>
      match q.resolver caller site with
      | some targets => (targets.filter (· != q.entry)).map Node.procedure
      | none => [.unknownCallees]
    | _, _ => [.unknownCallees]
  | .procedure name => if name = q.entry then [] else [.procedure name]

/-- All nodes to which the calls of a node lead. -/
def successorsOf (q : Problem) (n : Node) : List Node :=
  (q.graph.callees n).flatMap (q.successors n)

/-- Updates one node: to what it is known to require come the inputs of its successors and what it
requires itself. The callees outside require nothing themselves. -/
def visit (q : Problem) (s : Sweep) (n : Node) : Sweep :=
  if n = .unknownCallees then s
  else s.update n ((q.successorsOf n).map s.input.requirement ++ [q.direct.requirement n])

/-- One pass: all nodes in order, then the callees outside, which may call back in. -/
def pass (q : Problem) (s : Sweep) : Sweep :=
  let s := q.graph.nodes.foldl q.visit { s with changed := false }
  s.update .unknownCallees [s.input.requirement .unknownCallers]

/-- The table before the first pass: every node of the graph and of the direct requirements. -/
def start (q : Problem) : RequirementTable :=
  q.graph.nodes.foldl (fun t n => t.add n ∅) q.direct.zeroed

/-- Makes passes until one adds nothing; also counts them. -/
def iterate (q : Problem) : Nat → Sweep → Sweep × Nat
  | 0, s => (s, 0)
  | fuel + 1, s =>
    let next := q.pass s
    if next.changed then
      let (last, count) := q.iterate fuel next
      (last, count + 1)
    else (next, 1)

/-- A number of passes that is always enough, since each but the last adds a capability to the set
of some node. -/
def passLimit (q : Problem) : Nat :=
  q.graph.nodeCount * Capability.count + 1

/-- The outcome of all passes. Both tables start out the same. -/
def settled (q : Problem) : Sweep × Nat :=
  q.iterate q.passLimit { input := q.start, output := q.start }

end Problem

/-- Propagates requirements until nothing changes. -/
def run (q : Problem) : Propagation :=
  let (last, iterations) := q.settled
  { requirements := last.input.filter fun n _ => n.procedure?.isSome
    externallyCallable := q.graph.externallyCallable q.entry
    iterations
    unknownCallees := last.input.requirement .unknownCallees
    unknownCallers := last.input.requirement .unknownCallers }

/-- The fields of the outcome, without the code outside. -/
def toJson (r : Propagation) : Json :=
  .record [("requirements", r.requirements.toJson),
    ("externally_callable", .texts r.externallyCallable.toList),
    ("iterations", .nat r.iterations)]

end Propagation

end LeastPrivilege
