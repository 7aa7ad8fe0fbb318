import Hypervisor.Exit.Hypercall
import Hypervisor.Exit.Interrupt
import Hypervisor.Exit.PortAccess
import Hypervisor.Exit.Registers

/-!
# Dispatching exits

Each reason for which a guest stops has one handler, or else the exit is rejected.
-/

namespace Hypervisor

namespace Platform

/-- Backs the page of an address that a guest touched, and logs it if nothing does. -/
def backAccess (t : Ept) (physSize : UInt64) (gpa : Gpa) : PlatformM Fault := do
  let fault ← onMemory (t.onAccess physSize gpa)
  match fault with
  | .handled => pure ()
  | .unhandled => say .warn ("Guest touched unmapped memory at " ++ gpa.text)
  return fault

end Platform

namespace Session

/-- Handles an access to an address that is not mapped. The guest tries again, so it stays where it
is. -/
def handleViolation (reason : ExitReason) (address : Option Gpa) : SessionM ExitResult := do
  let gpa ← Action.orFail address (.unhandledExit reason)
  let g := (← get).guest
  match ← onPlatform (Platform.backAccess g.table g.physSize gpa) with
  | .handled => return .continued
  | .unhandled => Action.fail (.unhandledExit reason)

/-- Handles an exit. -/
def dispatch (reason : ExitReason) : SessionM ExitResult :=
  match reason with
  | .fromGuest (.externalInterrupt info) => handleExternalInterrupt info
  | .fromGuest (.code .interruptWindow) => handleInterruptWindow
  | .fromGuest (.code .rdmsr) => handleRdmsr reason
  | .fromGuest (.code .wrmsr) => handleWrmsr reason
  | .fromGuest (.eptViolation _ address) => handleViolation reason address
  | .fromGuest (.ioInstruction access) => handlePortAccess reason access
  | .fromGuest (.code .cpuid) => handleCpuid
  | .fromGuest (.code .vmcall) => handleHypercall reason
  | .fromGuest (.code .hlt) => do
      onHost (Host.say .info "HLT in guest, exiting guest.")
      return .exited
  | _ => Action.fail (.unhandledExit reason)

end Session

end Hypervisor
