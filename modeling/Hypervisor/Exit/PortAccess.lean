import Hypervisor.Exit.Basic
import Hypervisor.Guest.Cmos
import Hypervisor.Guest.IoBitmap

/-!
# Port accesses

The guest selects a register of the clock chip at one port and reads it at the next.  No other port
is emulated.
-/

namespace Hypervisor.Session

def rejectPortAccess (reason : ExitReason) (access : PortAccess) : SessionM ExitResult := do
  onHost (Host.say .warn
    ("Unemulated I/O on port " ++ hex access.port.toNat ++ " (in: " ++ toString access.isIn ++
      ", rtc index: " ++ hex (← get).guest.rtcIndex.toNat ++ ")"))
  Action.fail (.unhandledExit reason)

/-- Emulates a port access. -/
def handlePortAccess (reason : ExitReason) (access : PortAccess) : SessionM ExitResult := do
  if access.port = rtcPort && !access.isIn then
    let index := (← get).context.regs.rax.toUInt8
    onGuest fun g => { g with rtcIndex := index }
    continueAfter
  else if access.port = rtcPort + 1 && access.isIn then
    let g := (← get).guest
    match Cmos.read? g.rtcIndex g.physSize with
    | some value =>
        onRegisters fun r => { r with rax := (r.rax &&& ~~~0xff) ||| value.toUInt64 }
        continueAfter
    | none => rejectPortAccess reason access
  else
    rejectPortAccess reason access

end Hypervisor.Session
