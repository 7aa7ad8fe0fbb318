import Hypervisor.Guest.Layout

/-!
# The memory map of a guest

A guest may ask for a map of its memory.  The map is a record of 13 words of 32 bits, of which only
the flags and the place of the entries are used, and after it an entry of six words for each range.
-/

namespace Hypervisor

/-- What a range of guest memory is for. -/
inductive RangeKind where
  | usable
  | reserved
  deriving DecidableEq

def RangeKind.code : RangeKind → UInt32
  | usable => 1
  | reserved => 2

/-- A range of guest memory. -/
structure MemoryRange where
  base : UInt64
  length : UInt64
  kind : RangeKind
  deriving DecidableEq

namespace MemoryRange

/-- The range from an address up to another; it is empty if they are the wrong way round. -/
def between (base stop : UInt64) (kind : RangeKind) : MemoryRange :=
  ⟨base, if base ≤ stop then stop - base else 0, kind⟩

/-- The entry for a range. Its first word is the size of the rest. -/
def encode (r : MemoryRange) : List UInt32 :=
  [20, r.base.toUInt32, (r.base >>> 32).toUInt32, r.length.toUInt32, (r.length >>> 32).toUInt32,
   r.kind.code]

end MemoryRange

namespace MemoryMap

def entrySize : Nat := 24

/-- The size of the record before the entries in bytes. -/
def headerSize : Nat := 52

/-- The ranges of a guest with the given memory size. A guest that ends below the hole has no
extended memory. -/
def ranges (physSize : UInt64) : List MemoryRange :=
  let low :=
    [.between 0 Layout.holeStart .usable, .between Layout.holeStart Layout.holeEnd .reserved]
  if physSize > Layout.holeEnd then low ++ [.between Layout.holeEnd physSize .usable] else low

/-- The record before `count` entries: the flag for a memory map, and the size and the place of the
entries. -/
def header (count : Nat) : List UInt32 :=
  [0x40, 0, 0, 0, 0, 0, 0, 0, 0, 0, 0, (count * entrySize).toUInt32,
   Layout.memoryMap.toUInt32 + headerSize.toUInt32]

/-- The memory map of a guest with the given memory size. -/
def encode (physSize : UInt64) : List UInt32 :=
  header (ranges physSize).length ++ (ranges physSize).flatMap MemoryRange.encode

end MemoryMap

end Hypervisor
