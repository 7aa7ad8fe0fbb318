import Hypervisor.Guest.Basic
import Hypervisor.Host

/-!
# Sessions

A session is a guest together with the host that runs it.  Here the control block of the guest is
made current on the cpu, and flushed again.
-/

namespace Hypervisor

/-- A guest with its saved context, and the host as one cpu sees it. -/
structure Session where
  host : Host
  guest : Guest
  context : Context

abbrev SessionM (α : Type) : Type := Action Session VmError α

namespace Session

def onHost {α : Type} (x : HostM α) : SessionM α :=
  Action.onPart Session.host (fun s h => { s with host := h }) x

def onPlatform {α : Type} (x : PlatformM α) : SessionM α := onHost (Host.onPlatform x)

def onMemory {α : Type} (x : MemoryM VmError α) : SessionM α := onPlatform (Platform.onMemory x)

def onGuest (f : Guest → Guest) : SessionM Unit := modify fun s => { s with guest := f s.guest }

/-- Changes the saved context of the guest. -/
def onContext (f : Context → Context) : SessionM Unit :=
  modify fun s => { s with context := f s.context }

/-- Changes the general registers of the guest. -/
def onRegisters (f : Registers → Registers) : SessionM Unit :=
  onContext fun c => { c with regs := f c.regs }

/-- Refuses to go on while the control block of another guest is current on the cpu. -/
def checkOwner : SessionM Unit := do
  let s ← get
  match s.host.cpu.current with
  | some block => Action.require (block == s.guest.block) .foreignVmcs
  | none => pure ()

/-- Notes that the control block of the guest is current on the cpu. -/
def noteCurrent : SessionM Unit := do
  let block := (← get).guest.block
  onHost (Host.onCpu fun c => { c with current := some block })

/-- Clears the control block of the guest and makes it current. -/
def activate : SessionM Unit := do
  checkOwner
  let block := (← get).guest.block
  onHost (Action.mapError (fun _ => .vmcsInit) do
    Host.vmclear block
    Host.vmptrld block)
  onGuest fun g => { g with launched := false }
  noteCurrent

/-- Makes the control block of the guest current, launched or not. -/
def load : SessionM Unit := do
  checkOwner
  let block := (← get).guest.block
  onHost (Action.mapError (fun _ => .vmcsInit) (Host.vmptrld block))
  noteCurrent

/-- Flushes the control block of the guest, so that another cpu can run the guest. -/
def deactivate : SessionM Unit := do
  let block := (← get).guest.block
  onHost (Host.vmclear block)
  onGuest fun g => { g with launched := false }
  onHost (Host.onCpu fun c =>
    { c with current := if c.current = some block then none else c.current })

end Session

end Hypervisor
