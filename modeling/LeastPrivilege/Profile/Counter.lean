import LeastPrivilege.Capability.Set
import LeastPrivilege.Decimal.Fixed
import LeastPrivilege.Profile.Routine

/-!
# The counter

The counter of an instrumented program keeps a ledger: how many operations ran with which
capabilities under which identity. A bucket is opened whenever either changes. A process that finds
a counter set up by another one, because it has been forked, starts over with the capabilities
that are left.
-/

namespace LeastPrivilege

/-- The user and group ids of a process: real, effective and saved. -/
structure Identity where
  ruid : UInt32 := 0
  euid : UInt32 := 0
  suid : UInt32 := 0
  rgid : UInt32 := 0
  egid : UInt32 := 0
  sgid : UInt32 := 0
  deriving DecidableEq, Repr

namespace Identity

/-- The ids with strokes between them. -/
def render (i : Identity) : String :=
  let ids (a b c : UInt32) := toString a.toNat ++ "/" ++ toString b.toNat ++ "/" ++ toString c.toNat
  "uid=" ++ ids i.ruid i.euid i.suid ++ " gid=" ++ ids i.rgid i.egid i.sgid

end Identity

/-- The process in which a counter is used, as it is at the moment of use. -/
structure Host where
  pid : UInt32
  identity : Identity := {}
  deriving DecidableEq, Repr

/-- A line of the ledger. -/
structure Bucket where
  set : CapabilitySet
  identity : Identity
  count : Nat
  deriving DecidableEq, Repr

/-- The state of a counter. -/
structure Counter where
  /-- Whether the counter has been set up. -/
  started : Bool := false
  /-- The process that set it up. -/
  pid : UInt32 := 0
  /-- All operations counted since then. -/
  total : Nat := 0
  /-- The capabilities that are left. -/
  set : CapabilitySet := ∅
  /-- The identity last seen. -/
  identity : Identity := {}
  /-- The capabilities that are gone. -/
  removed : CapabilitySet := .all
  /-- The buckets in the order in which they were opened. -/
  ledger : List Bucket := []
  /-- The position of the bucket to which operations are credited. -/
  current : Nat := 0
  /-- How often a fork has been announced. -/
  forks : Nat := 0
  deriving DecidableEq, Repr

namespace Counter

/-- A counter that has not been set up. -/
def fresh : Counter := {}

/-- Opens a bucket for the present capabilities and identity. -/
def openBucket (c : Counter) : Counter :=
  { c with
    ledger := c.ledger ++ [{ set := c.set, identity := c.identity, count := 0 }]
    current := c.ledger.length }

/-- Sets the counter up for a process that has given capabilities. All counts are lost. -/
def start (_ : Counter) (live : Host) (initial : CapabilitySet) : Counter :=
  openBucket
    { started := true
      pid := live.pid
      set := initial
      identity := live.identity
      removed := initial.complement }

/-- Sets the counter up unless the process has done so before: without capabilities if nobody has,
and with those that are left if another process has. -/
def ensure (c : Counter) (live : Host) : Counter :=
  if !c.started then c.start live ∅
  else if live.pid ≠ c.pid then c.start live c.set
  else c

/-- Credits operations to the current bucket. -/
def credit (c : Counter) (n : Nat) : Counter :=
  { c with
    total := c.total + n
    ledger := c.ledger.modify c.current fun b => { b with count := b.count + n } }

/-- Counts operations. -/
def count (c : Counter) (live : Host) (n : Nat) : Counter :=
  (c.ensure live).credit n

/-- Takes capabilities away; those that are gone already do not matter. -/
def remove (c : Counter) (s : CapabilitySet) : Counter :=
  let gone := s \ c.removed
  let left := c.set \ gone
  let c' := { c with removed := c.removed ∪ gone }
  if left = c.set then c' else { c' with set := left }.openBucket

/-- Counts operations, and then takes capabilities away. -/
def drop (c : Counter) (live : Host) (n : Nat) (s : CapabilitySet) : Counter :=
  (c.count live n).remove s

/-- Takes over an identity. -/
def observe (c : Counter) (identity : Identity) : Counter :=
  if identity = c.identity then c else { c with identity }.openBucket

/-- Counts operations, and then looks at the identity again. -/
def identityChanged (c : Counter) (live : Host) (n : Nat) : Counter :=
  (c.count live n).observe live.identity

/-- Notes that the process is about to fork. -/
def announceFork (c : Counter) : Counter :=
  { c with forks := c.forks + 1 }

/-- The share of a count in a total, in percent with three places. -/
def share (n total : Nat) : String :=
  let percent := if total = 0 then 0 else Float.ofNat n / Float.ofNat total * 100
  Decimal.fixed 3 percent ++ "%"

/-- The line of the report for a bucket. -/
def reportLine (total : Nat) (b : Bucket) : String :=
  b.set.render ++ "; " ++ b.identity.render ++ ": " ++ toString b.count ++ ", " ++
    share b.count total ++ "\n"

/-- The text about a total and buckets under the number of a process. -/
def reportText (pid : UInt32) (forks total : Nat) (buckets : List Bucket) : String :=
  "\n========Summary======= pid = " ++ toString pid.toNat ++ " (forks announced: " ++
    toString forks ++ ")\nTotal executed IR number: " ++ toString total ++ "\n" ++
    String.join (buckets.map (reportLine total)) ++ "\n"

/-- The text that a process prints about what has been counted. -/
def report (c : Counter) (live : Host) : String :=
  reportText live.pid c.forks c.total c.ledger

/-- Something that happens to a counter. -/
inductive Event where
  | start (initial : CapabilitySet)
  | count (n : Nat)
  | drop (n : Nat) (s : CapabilitySet)
  | identityChanged (n : Nat)
  | announceFork
  deriving DecidableEq, Repr

/-- The counter after an event in a process. -/
def apply (c : Counter) (live : Host) : Event → Counter
  | .start initial => c.start live initial
  | .count n => c.count live n
  | .drop n s => c.drop live n s
  | .identityChanged n => c.identityChanged live n
  | .announceFork => c.announceFork

/-- The counter after events, each with the process in which it happens. -/
def run (c : Counter) (events : List (Host × Event)) : Counter :=
  events.foldl (fun c e => c.apply e.1 e.2) c

end Counter

namespace Routine

/-- What a call of a routine with given numbers does to the counter. Masks are cut to the universe;
a report changes nothing. -/
def event? : Routine → List Nat → Option Counter.Event
  | start, [mask] => some (.start (.ofBitsTruncate mask))
  | count, [n] => some (.count n)
  | countDrop, [n, mask] => some (.drop n (.ofBitsTruncate mask))
  | countIdentity, [n] => some (.identityChanged n)
  | announceFork, [] => some .announceFork
  | _, _ => none

end Routine

end LeastPrivilege
