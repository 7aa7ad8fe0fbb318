import Hypervisor.Host

/-!
# Host and guest state

What a control block must hold before a guest is entered for the first time: the state of the host
that the processor returns to, and a guest in real mode without paging.
-/

namespace Hypervisor

namespace Cpu

/-- The state of the host that a guest exits into on a cpu. -/
def hostState (c : Cpu) : List (Field × UInt64) :=
  let data := c.segments.data.toUInt64
  [(.hostCr0, c.processor.cr0), (.hostCr3, Processor.cr3), (.hostCr4, c.processor.cr4),
   (.hostEsSelector, data), (.hostSsSelector, data), (.hostDsSelector, data),
   (.hostFsSelector, data), (.hostGsSelector, data),
   (.hostCsSelector, c.segments.code.toUInt64), (.hostTrSelector, c.segments.tss.toUInt64),
   (.hostIdtrBase, Processor.idtrBase), (.hostGdtrBase, Processor.gdtrBase),
   (.hostFsBase, 0), (.hostGsBase, 0), (.hostTrBase, c.segments.tssBase),
   (.hostRip, Processor.exitLabel)]

end Cpu

namespace Guest

/-- The first state of a segment register: present, readable, writable and accessed. -/
def dataSegment (selector base limit rights : Field) : List (Field × UInt64) :=
  [(selector, 0), (base, 0), (limit, 0xffff), (rights, 0x93)]

def initialState : List (Field × UInt64) :=
  dataSegment .guestCsSelector .guestCsBase .guestCsLimit .guestCsAccessRights ++
  dataSegment .guestEsSelector .guestEsBase .guestEsLimit .guestEsAccessRights ++
  dataSegment .guestSsSelector .guestSsBase .guestSsLimit .guestSsAccessRights ++
  dataSegment .guestDsSelector .guestDsBase .guestDsLimit .guestDsAccessRights ++
  dataSegment .guestFsSelector .guestFsBase .guestFsLimit .guestFsAccessRights ++
  dataSegment .guestGsSelector .guestGsBase .guestGsLimit .guestGsAccessRights ++
  [(.guestLdtrSelector, 0), (.guestLdtrBase, 0), (.guestLdtrLimit, 0xffff),
   (.guestLdtrAccessRights, 0x82),
   (.guestTrSelector, 0), (.guestTrBase, 0), (.guestTrLimit, 0xfffff),
   (.guestTrAccessRights, 0x8b),
   (.guestGdtrBase, 0), (.guestGdtrLimit, 0x30), (.guestIdtrBase, 0), (.guestIdtrLimit, 0x3ff),
   (.guestActivityState, 0), (.guestInterruptibilityState, 0),
   (.guestCr3, 0), (.guestCr0, Cr0.numericError.bits), (.guestCr4, Cr4.vmxEnable.bits),
   (.guestLinkPointer, 0xffffffffffffffff), (.guestDr7, 0), (.guestRflags, Rflags.reserved.bits)]

end Guest

namespace Host

/-- Writes the state of the host into the current control block. -/
def initHostState : HostM Unit := do
  vmwriteAll (← get).cpu.hostState

/-- Writes the first state of a guest into the current control block. -/
def initGuestState : HostM Unit :=
  vmwriteAll Guest.initialState

end Host

end Hypervisor
