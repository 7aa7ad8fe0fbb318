import Hypervisor.Guest.MsrArea
import Hypervisor.Session

/-!
# Programming the execution controls

A guest stops for external interrupts, for halts and for the ports in its I/O bitmaps, and its
memory is translated by its extended page table.  Other controls keep the values that the processor
insists on.
-/

namespace Hypervisor.Session

def wantedPinBased : UInt32 := PinBased.externalInterruptExiting.bits.toUInt32

def wantedProcBased : UInt32 :=
  (ProcBased.activateSecondary ||| ProcBased.hltExiting ||| ProcBased.useIoBitmaps).bits.toUInt32

def wantedProcBased2 : UInt32 :=
  (ProcBased2.enableEpt ||| ProcBased2.unrestrictedGuest).bits.toUInt32

def wantedExit : UInt32 :=
  (ExitControl.hostAddressSpaceSize ||| ExitControl.acknowledgeInterrupt).bits.toUInt32

def wantedEntry : UInt32 := 0

/-- The execution controls, without the pin-based ones and the extended page table. -/
def executionControls (caps : ControlCapabilities) (g : Guest) : List (Field × UInt64) :=
  [(.processorBasedVmexecControls, (adjustControls wantedProcBased caps.procBased).toUInt64),
   (.secondaryVmexecControls, (adjustControls wantedProcBased2 caps.procBased2).toUInt64),
   (.exceptionBitmap, g.exceptionBitmap.toUInt64),
   (.ioBitmapA, g.ioBitmapA.val), (.ioBitmapB, g.ioBitmapB.val)]

/-- The exit and entry controls, with the lists of registers to switch. -/
def switchControls (caps : ControlCapabilities) (g : Guest) : List (Field × UInt64) :=
  let count := g.msrCount.toUInt64
  [(.vmexitControls, (adjustControls wantedExit caps.exit).toUInt64),
   (.vmexitMsrStoreAddr, g.guestMsrArea.val), (.vmexitMsrStoreCount, count),
   (.vmexitMsrLoadAddr, g.hostMsrArea.val), (.vmexitMsrLoadCount, count),
   (.vmentryControls, (adjustControls wantedEntry caps.entry).toUInt64),
   (.vmentryMsrLoadAddr, g.guestMsrArea.val), (.vmentryMsrLoadCount, count)]

/-- Writes the controls for the guest into the current control block. -/
def configureControls : SessionM Unit := do
  let g := (← get).guest
  let caps := ControlCapabilities.read (← get).host.cpu.processor.rdmsr
  onHost do
    Host.vmwrite .pinBasedExecControls (adjustControls wantedPinBased caps.pinBased).toUInt64
    Action.require caps.hasSecondaryControls .eptUnsupported
    Host.vmwriteAll (executionControls caps g)
    Host.vmwrite .eptptr (← Action.orFail g.table.pointer (.ept .invalidRoot))
    Host.vmwriteAll (switchControls caps g)

end Hypervisor.Session
