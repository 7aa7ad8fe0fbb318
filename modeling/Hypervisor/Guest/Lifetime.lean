import Hypervisor.Ept.Sweep
import Hypervisor.Guest.Basic
import Hypervisor.Guest.Population
import Hypervisor.Host

/-!
# Building and freeing guests

A guest is built with all that it owns, or nothing is kept of the attempt.  Freeing it gives back
every page.
-/

namespace Hypervisor

/-- What kind of guest to build. -/
structure GuestConfig where
  physSize : UInt64 := Layout.defaultSize
  /-- The exceptions that stop the guest. -/
  exceptionBitmap : UInt32 := 0
  /-- Whether all memory is backed from the start. -/
  populated : Bool := false

namespace Host

/-- Makes a page a control block, by stamping the revision of the processor into it. -/
def formatBlock (page : Hpa) : HostM Unit := do
  let basic := (← processor).rdmsr .vmxBasic
  Action.require (VmxBasic.regionSize basic ≤ pageSize) .vmcsInit
  onMemory (Memory.editPage page fun ws => ws.setHalf 0 (VmxBasic.revisionId basic))

/-- Releases what a table maps and all of it but the root, and flushes the translations. -/
def teardown (t : Ept) : HostM Unit := do
  onTable t.clear
  invept

/-- Gives back every page of a guest. The control block must not be current on any cpu. -/
def freeGuest (g : Guest) : HostM Unit := do
  let result ← Action.attempt (teardown g.table)
  match g.table.root with
  | some root => onMemory (Memory.release root)
  | none => pure ()
  onMemory (g.ownPages.forM Memory.release)
  Action.ofExcept result

/-- Builds a guest. -/
def buildGuest (config : GuestConfig) : HostM Guest := do
  Action.require (config.physSize != 0 && config.physSize % pageSize == 0) .invalidArgument
  let pages ← Action.orFail (← onMemory (Memory.allocRetainedMany 5)) .noMemory
  match ← Action.attempt (formatBlock pages[1]) with
  | .error e =>
      onMemory (pages.toList.forM Memory.release)
      Action.fail e
  | .ok () =>
      let g : Guest :=
        { table := ⟨some pages[0]⟩, block := pages[1], msrPage := pages[2], ioBitmapA := pages[3]
          ioBitmapB := pages[4], exceptionBitmap := config.exceptionBitmap
          physSize := config.physSize }
      if config.populated then
        match ← Action.attempt (onMemory (g.table.populateAll g.physSize)) with
        | .ok () => return g
        | .error e =>
            match ← Action.attempt (freeGuest g) with
            | .ok () => pure ()
            | .error e =>
                say .warn ("Failed to release a partially populated guest: " ++ VmError.text e)
            Action.fail e
      else
        return g

end Host

end Hypervisor
