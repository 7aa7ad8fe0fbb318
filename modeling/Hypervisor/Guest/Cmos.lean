/-!
# Memory size in the clock chip

A guest kernel learns the size of its memory from four registers of the clock chip: the kibibytes of
base memory and the kibibytes above the first mebibyte, each in two bytes.
-/

namespace Hypervisor.Cmos

/-- The low byte of the base memory size. -/
def baseLow : UInt8 := 0x15

/-- The high byte of the base memory size. -/
def baseHigh : UInt8 := 0x16

/-- The low byte of the extended memory size. -/
def extendedLow : UInt8 := 0x17

/-- The high byte of the extended memory size. -/
def extendedHigh : UInt8 := 0x18

/-- Kibibytes of base memory. -/
def baseSize : Nat := 640

/-- Kibibytes of extended memory of a guest with the given memory size. -/
def extendedSize (physSize : UInt64) : Nat := physSize.toNat / 1024 - 1024

/-- The value of a register; only the four of the memory size have one. -/
def read? (index : UInt8) (physSize : UInt64) : Option UInt8 :=
  if index = baseLow then some baseSize.toUInt8
  else if index = baseHigh then some (baseSize >>> 8).toUInt8
  else if index = extendedLow then some (extendedSize physSize).toUInt8
  else if index = extendedHigh then some (extendedSize physSize >>> 8).toUInt8
  else none

end Hypervisor.Cmos
