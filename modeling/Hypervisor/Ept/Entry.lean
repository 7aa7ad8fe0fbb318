import Hypervisor.Error

/-!
# Table entries

An entry of the extended page table is a word that holds a page address in bits 51:12 and flags in
bits 9:0.  An entry that permits no access is absent, whatever address it holds.
-/

namespace Hypervisor

def entryFlags : FlagTable :=
  [.bit "READ" 0, .bit "WRITE" 1, .bit "EXECUTE" 2, ⟨"MEMTYPE_WB", 0x30⟩, .bit "IGNORE_PAT" 6,
   .bit "HUGE" 7, .bit "ACCESSED" 8, .bit "DIRTY" 9, ⟨"FULL", 0x7⟩]

abbrev EntryFlags := Flags entryFlags

namespace EntryFlags

/-- Every access is permitted. -/
def full : EntryFlags := { bits := 0x7 }

/-- The page is cached write-back. -/
def writeBack : EntryFlags := { bits := 0x30 }

/-- The guest's own choice of caching is ignored. -/
def ignorePat : EntryFlags := { bits := 0x40 }

end EntryFlags

/-- The kinds of access that an entry may permit. -/
def permissionFlags : FlagTable :=
  [.bit "READ" 0, .bit "WRITE" 1, .bit "EXECUTABLE" 2, ⟨"FULL", 0x7⟩]

abbrev Permission := Flags permissionFlags

namespace Permission

def read : Permission := { bits := 0x1 }
def write : Permission := { bits := 0x2 }

/-- Every access. -/
def full : Permission := { bits := 0x7 }

/-- The flags of a leaf with a permission: cached write-back, whatever the guest chooses. -/
def leafFlags (perm : Permission) : EntryFlags :=
  .truncate perm.bits ||| EntryFlags.writeBack ||| EntryFlags.ignorePat

end Permission

/-- An entry of the extended page table, at any level. -/
structure Entry where
  raw : UInt64
  deriving DecidableEq

namespace Entry

/-- The bits of an entry that hold the address. -/
def addressMask : UInt64 := 0x000ffffffffff000

/-- The entry that refers to nothing. -/
def empty : Entry := ⟨0⟩

def flags (e : Entry) : EntryFlags := .truncate e.raw

def permission (e : Entry) : Permission := .truncate (e.raw &&& EntryFlags.full.bits)

/-- The page that an entry refers to, if it permits any access. -/
def target (e : Entry) : Option Hpa :=
  if e.flags.intersects EntryFlags.full then Address.ofWord? (e.raw &&& addressMask) else none

/-- An entry that refers to another page; its flags stay. -/
def withTarget (e : Entry) (p : Hpa) : Except EptError Entry :=
  if p.isPageAligned then .ok ⟨p.val ||| (e.raw &&& ~~~addressMask)⟩ else .error .unaligned

/-- An entry with other flags; its address stays. -/
def withFlags (e : Entry) (flags : EntryFlags) : Entry :=
  ⟨flags.bits ||| (e.raw &&& addressMask)⟩

def text (e : Entry) : String :=
  Text.wrapped "Epte" (hex (e.raw &&& addressMask).toNat ++ ", " ++ e.flags.text)

/-- A change to an entry. -/
inductive Edit where
  | target (p : Hpa)
  | flags (flags : EntryFlags)
  | clear

/-- The entry after a change. -/
def apply (e : Entry) : Edit → Except EptError Entry
  | .target p => e.withTarget p
  | .flags flags => .ok (e.withFlags flags)
  | .clear => .ok empty

end Entry

end Hypervisor
