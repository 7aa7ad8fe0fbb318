import Hypervisor.Exit.Dispatch
import Hypervisor.Guest.IoBitmap
import Hypervisor.Instruction.Dump
import Hypervisor.Vmcs.Controls
import Hypervisor.Vmcs.State

/-!
# Running a guest

A run takes a guest up to its next exit, handles the exit and gives the cpu back to the scheduler.
The first run sets up the control block; a guest that halts, or whose exit is rejected, is destroyed.
-/

namespace Hypervisor.Session

def setupBitmaps : SessionM Unit := do
  let g := (← get).guest
  onMemory g.interceptEmulatedPorts

def setupMsrs : SessionM Unit := do
  onGuest fun g => { g with msrCount := switchedMsrs.length }
  let s ← get
  onMemory (s.guest.listMsrs s.host.cpu.processor.rdmsr)

/-- Prepares the control block of a guest that has not run yet. -/
def prepareFirstRun : SessionM Unit := do
  activate
  onHost Host.initHostState
  onHost Host.initGuestState
  setupBitmaps
  setupMsrs
  configureControls

/-- Prepares the control block of a guest that has run, perhaps on another cpu. -/
def prepareNextRun : SessionM Unit := do
  load
  let s ← get
  if s.guest.lastCpu = some s.host.cpu.id then
    pure ()
  else
    onHost (Host.sayOnCpu .debug
      ("guest migrated from " ++ Text.option toString s.guest.lastCpu))
    onHost Host.initHostState

/-- Makes the guest ready to be entered on the cpu, and counts the run. -/
def prepareRun : SessionM Unit := do
  if (← get).guest.runs = 0 then prepareFirstRun else prepareNextRun
  let id := (← get).host.cpu.id
  onGuest fun g => { g with lastCpu := some id, runs := g.runs + 1 }

/-- Writes the saved stack and instruction pointers into the current control block. -/
def loadContext : SessionM Unit := do
  let context := (← get).context
  onHost (Host.vmwrite .guestRsp context.rsp)
  onHost (Host.vmwrite .guestRip context.rip)

/-- Saves the stack and instruction pointers from the current control block. -/
def saveContext : SessionM Unit := do
  let rip ← onHost (Host.vmread .guestRip)
  onContext fun c => { c with rip := rip }
  let rsp ← onHost (Host.vmread .guestRsp)
  onContext fun c => { c with rsp := rsp }

/-- Enters the guest and tells why it stopped. -/
def enter : SessionM ExitReason := do
  loadContext
  let changed ← onHost (Host.vmenter (← get).guest.launched)
  onContext fun c => c.setAll changed
  onGuest fun g => { g with launched := true }
  saveContext
  onHost (ExitReason.decode Host.vmread)

/-- Runs the guest up to its next exit and handles the exit. -/
def runOnce : SessionM ExitResult := do
  prepareRun
  let reason ← enter
  onHost (Host.sayOnCpu .trace ("VMEXIT: " ++ reason.text))
  dispatch reason

/-- Destroys the guest, which must not stay current on the cpu. -/
def terminate : SessionM Unit := do
  match ← Action.attempt deactivate with
  | .ok () => pure ()
  | .error e =>
      onHost (Host.sayOnCpu .warn ("Failed to clear the vmcs: " ++ VmError.message e))
  onHost (Host.onKernel Kernel.destroyCurrent)

/-- Logs why the guest is given up, with its registers if they can be read. -/
def reportFailure (e : VmError) : SessionM Unit := do
  onHost (Host.sayOnCpu .error ("Unhandled VMEXIT, aborting guest: " ++ e.message))
  let s ← get
  if s.host.cpu.current = some s.guest.block then
    onHost (Host.dump s.host.disassembler s.guest.table.resolve)
  else
    pure ()

/-- Runs the guest up to its next exit, handles the exit and gives the cpu back. While the control
block of another guest is current on the cpu, the guest is not run at all. -/
def run : SessionM ExitResult := do
  match ← Action.attempt runOnce with
  | .error .foreignVmcs => Action.fail .foreignVmcs
  | .ok .continued =>
      onHost (Host.onKernel Kernel.yieldNow)
      return .continued
  | .ok .exited =>
      terminate
      onHost (Host.onKernel Kernel.yieldNow)
      return .exited
  | .error e =>
      reportFailure e
      terminate
      onHost (Host.onKernel Kernel.yieldNow)
      Action.fail e

end Hypervisor.Session
