import Hypervisor.Address

/-!
# The kernel around the hypervisor

A guest is one of the kernel's environments.  The hypervisor asks the kernel to destroy it, to hand
over the cpu, and to serve the requests that the guest makes of the host.  The kernel keeps a record
of what it was asked.
-/

namespace Hypervisor

/-- The number of an environment. -/
structure EnvId where
  val : UInt32
  deriving DecidableEq

/-- A request that the kernel has served. -/
inductive Request where
  | setRunnable (env : EnvId) (runnable : Bool)
  /-- A message, perhaps with a page, from the current environment. -/
  | send (receiver : EnvId) (value : UInt32) (page : Option Hva) (perm : UInt32)
  /-- The current environment waits for a message, whose page goes to `destination`. -/
  | receive (destination : Gpa)
  | endOfInterrupt
  | spawnShell
  deriving DecidableEq

/-- The services of the kernel, with what they have been asked. -/
structure Kernel where
  current : EnvId := ⟨0x1001⟩
  /-- The environments that are guests, in the order of their creation. -/
  guests : List EnvId := []
  fileServer : Option EnvId := some ⟨0x1002⟩
  /-- The status that sending and receiving answer. -/
  messageStatus : Int64 := 0
  requests : Array Request := #[]
  destroyed : List EnvId := []
  yields : Nat := 0
  /-- The number of the disk image that was staged last. -/
  diskImage : Nat := 0

namespace Kernel

def record (k : Kernel) (r : Request) : Kernel := { k with requests := k.requests.push r }

def destroyCurrent (k : Kernel) : Kernel := { k with destroyed := k.current :: k.destroyed }

def yieldNow (k : Kernel) : Kernel := { k with yields := k.yields + 1 }

def stageDiskImage (k : Kernel) : Kernel := { k with diskImage := k.diskImage + 1 }

def guestNumber? (k : Kernel) (n : Nat) : Option EnvId :=
  if n = 0 then none else k.guests[n - 1]?

/-- A guest as the list of guests shows it. -/
def listing (n : Nat) (env : EnvId) : String :=
  toString n ++ ".[" ++ hexDigits env.val.toNat ++ "]vm" ++ toString n

end Kernel

end Hypervisor
