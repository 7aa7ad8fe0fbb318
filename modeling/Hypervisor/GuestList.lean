import Hypervisor.Platform

/-!
# The list of guests

The host's program for managing guests lists them by number and resumes one that went back to the
host.
-/

namespace Hypervisor.Platform

/-- Logs every guest, numbered from one, and gives their number. -/
def listGuests : PlatformM Nat := do
  let guests := (← get).kernel.guests
  say .info "Running VMs:"
  guests.zipIdx.forM fun (env, i) => say .info (Kernel.listing (i + 1) env)
  return guests.length

/-- Makes the guest with a number runnable, and tells whether there is one. -/
def resumeGuest (n : Nat) : PlatformM Bool := do
  match (← get).kernel.guestNumber? n with
  | some env =>
      onKernel fun k => k.record (.setRunnable env true)
      say .info ("Resume vm." ++ toString n)
      return true
  | none =>
      say .warn ("No vm." ++ toString n ++ " to resume")
      return false

end Hypervisor.Platform
