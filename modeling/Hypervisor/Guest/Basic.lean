import Hypervisor.Ept.Table

/-!
# Guests

A guest owns five pages besides its memory: the root of its extended page table, its control block,
the page of its model-specific registers, and two I/O bitmaps.
-/

namespace Hypervisor

/-- A virtual machine. -/
structure Guest where
  table : Ept
  /-- The page of the control block. -/
  block : Hpa
  /-- The page of the registers that are switched on entry and exit: those of the host in its first
  half, those of the guest in its second. -/
  msrPage : Hpa
  /-- Which of the ports below 0x8000 stop the guest. -/
  ioBitmapA : Hpa
  /-- Which of the ports from 0x8000 on stop the guest. -/
  ioBitmapB : Hpa
  exceptionBitmap : UInt32
  /-- The size of the guest's memory. -/
  physSize : UInt64
  /-- The number of registers that are switched. -/
  msrCount : Nat := 0
  /-- How often the guest was scheduled. -/
  runs : Nat := 0
  /-- The cpu whose state the guest exits into. -/
  lastCpu : Option Nat := none
  /-- Whether the control block is launched. -/
  launched : Bool := false
  /-- The register of the clock chip that the guest has selected. -/
  rtcIndex : UInt8 := 0
  /-- The last external interrupt that arrived while the guest ran. -/
  hostVector : UInt32 := 0
  deriving DecidableEq

namespace Guest

variable {ε : Type}

/-- Maps a page of a host process, which may or may not write to it. -/
def mapFromHost (g : Guest) (source : Hva) (sourceWritable : Bool) (gpa : Gpa)
    (perm : Permission) : MemoryM VmError Unit := do
  Action.require
    (source.isPageAligned && gpa.isPageAligned && gpa.val < g.physSize &&
      !(perm &&& Permission.full).isEmpty && (!perm.contains Permission.write || sourceWritable))
    .invalidArgument
  Action.mapError
    (fun e => match e with
      | .notExist | .writeWithoutRead => .invalidArgument
      | e => .ept e)
    (g.table.map source gpa perm false)

def blockText (g : Guest) : String := Text.record "Vmcs" [("hpa", g.block.text)]

/-- The pages that a guest owns besides its table and its memory. -/
def ownPages (g : Guest) : List Hpa := [g.block, g.msrPage, g.ioBitmapA, g.ioBitmapB]

end Guest

end Hypervisor
