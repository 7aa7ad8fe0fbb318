import Hypervisor.Ept.Table
import Hypervisor.Guest.Layout

/-!
# Backing guest memory

A page of guest memory is backed when the guest first touches it, or all pages are backed when the
guest is built.
-/

namespace Hypervisor

/-- What came of an access to an address that is not mapped. -/
inductive Fault where
  /-- The page is mapped now, and the guest can try again. -/
  | handled
  /-- Nothing backs the address. -/
  | unhandled
  deriving DecidableEq

def Fault.text : Fault → String
  | handled => "Handled"
  | unhandled => "Unhandled"

namespace Ept

/-- Backs an address with a new page of zeros. The mapping holds the only reference. -/
def populate (t : Ept) (gpa : Gpa) : MemoryM VmError Unit := do
  let page ← Action.orFail (← Memory.allocRetained) .noMemory
  let result ← Action.attempt (t.insertPage page gpa Permission.full)
  Memory.release page
  match result with
  | .ok () => pure ()
  | .error .outOfMemory => Action.fail .noMemory
  | .error e => Action.fail (.ept e)

/-- Backs the page of an address that the guest touched. -/
def onAccess (t : Ept) (physSize : UInt64) (gpa : Gpa) : MemoryM VmError Fault := do
  match Region.of gpa physSize with
  | .ram =>
      t.populate gpa.pageDown
      return .handled
  | .videoBuffer =>
      let buffer ← Memory.virtual ⟨videoBuffer⟩
      Action.mapError .ept (t.map buffer gpa.pageDown Permission.full false)
      return .handled
  | .unmapped => return .unhandled

/-- Backs `count` consecutive pages from an address on; words that are no addresses are passed. -/
def populateFrom (t : Ept) (start : UInt64) : (count : Nat) → MemoryM VmError Unit
  | 0 => pure ()
  | count + 1 => do
      match Address.ofWord? start with
      | some gpa => t.populate gpa
      | none => pure ()
      t.populateFrom (start + pageSize) count

/-- The number of pages in a range of addresses, the last one perhaps in part. -/
def pagesBetween (start stop : UInt64) : Nat :=
  (stop.toNat - start.toNat + (pageSize.toNat - 1)) / pageSize.toNat

/-- Backs all memory of a guest of the given size. -/
def populateAll (t : Ept) (physSize : UInt64) : MemoryM VmError Unit := do
  t.populateFrom 0 (pagesBetween 0 Layout.holeStart)
  t.populateFrom Layout.holeEnd (pagesBetween Layout.holeEnd physSize)

end Ept

end Hypervisor
