import Hypervisor.Control
import Hypervisor.Guest.Basic

/-!
# Switched registers

The processor loads and stores some model-specific registers on every entry and exit of a guest.
Each half of the guest's register page lists them as pairs of words: the number of the register in
the low half of the first word, and its value in the second.
-/

namespace Hypervisor

def switchedMsrs : List MsrIndex := [.efer]

/-- The largest number of registers that half a page can list. -/
def maxMsrCount : Nat := pageSize.toNat / 2 / 16

namespace Guest

variable {ε : Type}

/-- The list of the host's registers. -/
def hostMsrArea (g : Guest) : Hpa := g.msrPage

/-- The list of the guest's registers. -/
def guestMsrArea (g : Guest) : Hpa := g.msrPage.plus (pageSize / 2)

/-- The index of the first word of a list in its page. -/
def areaStart (area : Hpa) : Nat := area.pageOffset.toNat / 8

/-- Where the value of a register is, in a list of `count` registers, as the index of its word. -/
def findMsr (area : Hpa) (count : Nat) (msr : MsrIndex) : MemoryM ε (Option Nat) := do
  let ws ← Memory.pageWords area
  return ((List.range count).find? fun i => (ws.word (areaStart area + 2 * i)).toUInt32 == msr).map
    fun i => areaStart area + 2 * i + 1

/-- The page with a list of registers in it. -/
def writeMsrs (ws : PageWords) (start : Nat) : List (MsrIndex × UInt64) → PageWords
  | [] => ws
  | (msr, value) :: rest =>
      writeMsrs ((ws.setWord start msr.toUInt64).setWord (start + 1) value) (start + 2) rest

/-- Lists the switched registers with the values that the host has now, and as zero for the guest. -/
def listMsrs (g : Guest) (rdmsr : MsrIndex → UInt64) : MemoryM ε Unit := do
  Memory.editPage g.hostMsrArea fun ws =>
    writeMsrs ws (areaStart g.hostMsrArea) (switchedMsrs.map fun msr => (msr, rdmsr msr))
  Memory.editPage g.guestMsrArea fun ws =>
    writeMsrs ws (areaStart g.guestMsrArea) (switchedMsrs.map fun msr => (msr, 0))

end Guest

end Hypervisor
