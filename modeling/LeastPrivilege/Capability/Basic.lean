/-!
# Capabilities

The privileges into which a Linux kernel divides the power of its superuser, in the order of their
kernel indices, with the two names under which each is known.
-/

namespace LeastPrivilege

/-- A capability of the kernel, listed by index. -/
inductive Capability where
  | chown
  | dacOverride
  | dacReadSearch
  | fowner
  | fsetid
  | kill
  | setgid
  | setuid
  | setpcap
  | linuxImmutable
  | netBindService
  | netBroadcast
  | netAdmin
  | netRaw
  | ipcLock
  | ipcOwner
  | sysModule
  | sysRawio
  | sysChroot
  | sysPtrace
  | sysPacct
  | sysAdmin
  | sysBoot
  | sysNice
  | sysResource
  | sysTime
  | sysTtyConfig
  | mknod
  | lease
  | auditWrite
  | auditControl
  | setfcap
  | macOverride
  | macAdmin
  | syslog
  | wakeAlarm
  | blockSuspend
  | auditRead
  deriving DecidableEq, Repr

namespace Capability

/-- How many capabilities there are. -/
abbrev count : Nat := 38

/-- Every capability once, in the order of the indices. -/
def all : List Capability :=
  [.chown, .dacOverride, .dacReadSearch, .fowner, .fsetid, .kill, .setgid, .setuid, .setpcap,
   .linuxImmutable, .netBindService, .netBroadcast, .netAdmin, .netRaw, .ipcLock, .ipcOwner,
   .sysModule, .sysRawio, .sysChroot, .sysPtrace, .sysPacct, .sysAdmin, .sysBoot, .sysNice,
   .sysResource, .sysTime, .sysTtyConfig, .mknod, .lease, .auditWrite, .auditControl, .setfcap,
   .macOverride, .macAdmin, .syslog, .wakeAlarm, .blockSuspend, .auditRead]

/-- The kernel's number of a capability. -/
def index (c : Capability) : Nat :=
  c.ctorIdx

/-- The capability with a given number, if the number is below `count`. -/
def ofIndex? (n : Nat) : Option Capability :=
  all[n]?

/-- The name used in reports. -/
def name : Capability → String
  | chown => "CapChown"
  | dacOverride => "CapDacOverride"
  | dacReadSearch => "CapDacReadSearch"
  | fowner => "CapFowner"
  | fsetid => "CapFsetid"
  | kill => "CapKill"
  | setgid => "CapSetgid"
  | setuid => "CapSetuid"
  | setpcap => "CapSetpCap"
  | linuxImmutable => "CapLinuxImmutable"
  | netBindService => "CapNetBindService"
  | netBroadcast => "CapNetBroadcast"
  | netAdmin => "CapNetAdmin"
  | netRaw => "CapNetRaw"
  | ipcLock => "CapIpcLock"
  | ipcOwner => "CapIpcOwner"
  | sysModule => "CapSysModule"
  | sysRawio => "CapSysRawio"
  | sysChroot => "CapSysChroot"
  | sysPtrace => "CapSysPtrace"
  | sysPacct => "CapSysPacct"
  | sysAdmin => "CapSysAdmin"
  | sysBoot => "CapSysBoot"
  | sysNice => "CapSysNice"
  | sysResource => "CapSysResource"
  | sysTime => "CapSysTime"
  | sysTtyConfig => "CapSysTtyConfig"
  | mknod => "CapMknod"
  | lease => "CapLease"
  | auditWrite => "CapAuditWrite"
  | auditControl => "CapAuditControl"
  | setfcap => "CapSetfCap"
  | macOverride => "CapMacOverride"
  | macAdmin => "CapMacAdmin"
  | syslog => "CapSyslog"
  | wakeAlarm => "CapWakeAlarm"
  | blockSuspend => "CapBlockSuspend"
  | auditRead => "CapAuditRead"

/-- Capital letters throughout, with an underscore before each letter that was a capital. -/
def upperWords : List Char → List Char
  | [] => []
  | c :: cs => (if c.isUpper then ['_', c] else [c.toUpper]) ++ upperWords cs

/-- The kernel's own constant name. It is spelled from the words of `name`, but `setpcap` and
`setfcap` count as one word each. -/
def kernelName : Capability → String
  | setpcap => "CAP_SETPCAP"
  | setfcap => "CAP_SETFCAP"
  | c => "CAP" ++ String.ofList (upperWords (c.name.toList.drop 3))

theorem length_all : all.length = count := rfl

theorem index_lt_count (c : Capability) : c.index < count := by
  cases c <;> decide

@[simp] theorem ofIndex?_index (c : Capability) : ofIndex? c.index = some c := by
  cases c <;> rfl

theorem mem_all (c : Capability) : c ∈ all :=
  List.mem_of_getElem? (ofIndex?_index c)

theorem index_injective {c d : Capability} (h : c.index = d.index) : c = d := by
  have hc := ofIndex?_index c
  rw [h, ofIndex?_index] at hc
  exact (Option.some.inj hc).symm

theorem index_all : all.map index = List.range count := by
  decide

theorem ofIndex?_eq_some_iff {n : Nat} {c : Capability} : ofIndex? n = some c ↔ c.index = n := by
  constructor
  · intro h
    have hn : n < all.length := (List.getElem?_eq_some_iff.1 h).1
    have hmap : (all.map index)[n]? = some c.index := by
      rw [List.getElem?_map, show all[n]? = some c from h, Option.map_some]
    rw [index_all, List.getElem?_range (by simpa [length_all] using hn)] at hmap
    exact (Option.some.inj hmap).symm
  · rintro rfl
    exact ofIndex?_index c

theorem ofIndex?_eq_none_iff {n : Nat} : ofIndex? n = none ↔ count ≤ n := by
  rw [ofIndex?, List.getElem?_eq_none_iff, length_all]

end Capability

end LeastPrivilege
