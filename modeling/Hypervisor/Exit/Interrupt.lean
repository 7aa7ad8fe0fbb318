import Hypervisor.Exit.Basic

/-!
# External interrupts

An interrupt of the host that arrives while the guest runs is injected into the guest: at its next
entry if it accepts interrupts, and otherwise as soon as it does.
-/

namespace Hypervisor.Session

/-- Makes the guest stop, or not stop, as soon as it accepts interrupts. -/
def setWindowExiting (on : Bool) : SessionM Unit := onHost do
  let controls ← Host.vmread .processorBasedVmexecControls
  let bit := ProcBased.interruptWindowExiting.bits
  Host.vmwrite .processorBasedVmexecControls
    (if on then controls ||| bit else controls &&& ~~~bit)

/-- Handles an interrupt that arrived while the guest ran. -/
def handleExternalInterrupt (info : InterruptInfo) : SessionM ExitResult := do
  onHost (Host.say .trace ("external interrupt " ++ hex info.vector.toNat))
  onGuest fun g => { g with hostVector := info.raw }
  let rflags : Rflags := .truncate (← onHost (Host.vmread .guestRflags))
  if rflags.contains Rflags.interrupts then
    onHost (Host.vmwrite .vmentryInterruptionInfo info.raw.toUInt64)
  else
    setWindowExiting true
  return .continued

/-- Handles a guest that accepts interrupts again. -/
def handleInterruptWindow : SessionM ExitResult := do
  setWindowExiting false
  let g := (← get).guest
  onHost (Host.vmwrite .vmentryInterruptionInfo g.hostVector.toUInt64)
  return .continued

end Hypervisor.Session
