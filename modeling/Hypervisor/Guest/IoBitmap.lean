import Hypervisor.Guest.Basic

/-!
# I/O bitmaps

Two pages hold a bit for each port, which tells whether an access to the port stops the guest.  The
bit of a port is counted from the lowest bit of the first byte of its page.
-/

namespace Hypervisor

/-- The index port of the clock chip; its data port follows. -/
def rtcPort : UInt16 := 0x70

namespace Guest

variable {ε : Type}

/-- The page that holds the bit of a port. -/
def bitmapPage (g : Guest) (port : UInt16) : Hpa :=
  if port < 0x8000 then g.ioBitmapA else g.ioBitmapB

/-- The index of the bit of a port in its page. -/
def bitmapBit (port : UInt16) : Nat := port.toNat % 0x8000

/-- The bit of a port in its word. -/
def bitmapMask (port : UInt16) : UInt64 := (1 : UInt64) <<< (bitmapBit port % 64).toUInt64

/-- Makes an access to a port stop the guest. -/
def interceptPort (g : Guest) (port : UInt16) : MemoryM ε Unit :=
  Memory.editPage (g.bitmapPage port) fun ws =>
    ws.setWord (bitmapBit port / 64) (ws.word (bitmapBit port / 64) ||| bitmapMask port)

/-- Whether an access to a port stops the guest. -/
def isPortIntercepted (g : Guest) (port : UInt16) : MemoryM ε Bool := do
  let ws ← Memory.pageWords (g.bitmapPage port)
  return ws.word (bitmapBit port / 64) &&& bitmapMask port != 0

/-- Makes accesses to the emulated ports stop the guest. -/
def interceptEmulatedPorts (g : Guest) : MemoryM ε Unit :=
  [rtcPort, rtcPort + 1].forM g.interceptPort

end Guest

end Hypervisor
