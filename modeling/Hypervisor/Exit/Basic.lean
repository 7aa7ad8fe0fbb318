import Hypervisor.Session

/-!
# Handling exits

What the handlers of exits have in common: a handled exit lets the guest go on after the instruction
that stopped it, or ends the guest.
-/

namespace Hypervisor

/-- What becomes of a guest after an exit. -/
inductive ExitResult where
  | continued
  | exited
  deriving DecidableEq

def ExitResult.text : ExitResult → String
  | continued => "Ok"
  | exited => "Exited"

namespace Session

/-- Moves the guest past the instruction that stopped it. -/
def forwardRip : SessionM Unit := do
  let length ← onHost (Host.vmread .vmexitInstructionLength)
  let rip := (← get).context.rip
  if rip.toNat + length.toNat < UInt64.size then
    onContext fun c => { c with rip := rip + length }
  else
    Action.panic .addOverflow

/-- Moves the guest past the instruction that stopped it, and lets it go on. -/
def continueAfter : SessionM ExitResult := do
  forwardRip
  return .continued

end Session

end Hypervisor
