import Hypervisor.Address

/-!
# Guest-physical memory layout

Every guest has private memory below the I/O hole and from one mebibyte up to its size.  In the hole
only the page of the text video buffer is backed, by the video buffer of the host.
-/

namespace Hypervisor

namespace Layout

/-- The size of a guest's memory unless another is asked for. -/
def defaultSize : UInt64 := 0x1000000

/-- Where the guest kernel starts, with its stack below. -/
def entryPoint : UInt64 := 0x7000

/-- Where the guest is handed its memory map. -/
def memoryMap : UInt64 := 0x6000

def holeStart : UInt64 := 0xa0000

/-- The end of the I/O hole, where extended memory starts. -/
def holeEnd : UInt64 := 0x100000

end Layout

/-- What backs a guest-physical address. -/
inductive Region where
  | ram
  | videoBuffer
  | unmapped
  deriving DecidableEq

namespace Region

/-- What backs an address of a guest with the given memory size. -/
def of (gpa : Gpa) (physSize : UInt64) : Region :=
  if gpa.val < Layout.holeStart then ram
  else if Hypervisor.videoBuffer ≤ gpa.val && gpa.val < Hypervisor.videoBuffer + pageSize then
    videoBuffer
  else if Layout.holeEnd ≤ gpa.val && gpa.val < physSize then ram
  else unmapped

def text : Region → String
  | ram => "Ram"
  | videoBuffer => "VideoBuffer"
  | unmapped => "Unmapped"

end Region

end Hypervisor
