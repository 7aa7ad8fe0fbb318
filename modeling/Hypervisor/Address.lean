import Hypervisor.Text

/-!
# Addresses

A hypervisor works in three address spaces.  Each has its own type, so that an address of one
cannot be used in another.  An address is valid when it is built; arithmetic on it is not checked
again, except for overflow.
-/

namespace Hypervisor

def pageSize : UInt64 := 0x1000

/-- Number of bits in an offset into a page. -/
def pageShift : Nat := 12

/-- Bits of an address that are the offset into its page. -/
def pageMask : UInt64 := 0xfff

/-- The page of the text video buffer, in host memory and in every guest. -/
def videoBuffer : UInt64 := 0xb8000

/-- The address spaces that meet in a hypervisor. -/
inductive Space where
  | guestPhysical
  | hostPhysical
  | hostVirtual
  deriving DecidableEq

/-- Whether a word is an address of the space. Host virtual addresses are canonical. -/
def Space.isValid : Space → UInt64 → Bool
  | .hostVirtual, w =>
      let high := w &&& 0xffff800000000000
      high == 0 || high == 0xffff800000000000
  | _, w => w < 0xffff000000000000

/-- The name that an address of the space is shown with. -/
def Space.name : Space → String
  | .guestPhysical => "Gpa"
  | .hostPhysical => "Hpa"
  | .hostVirtual => "Hva"

/-- An address of a space. -/
structure Address (space : Space) where
  val : UInt64
  deriving DecidableEq, Inhabited

/-- A guest-physical address, which the extended page table translates. -/
abbrev Gpa := Address .guestPhysical

/-- A host-physical address, which the extended page table and the control blocks hold. -/
abbrev Hpa := Address .hostPhysical

/-- A host virtual address, at which the hypervisor reaches memory. -/
abbrev Hva := Address .hostVirtual

namespace Address

variable {space : Space}

/-- The address with the given value, if it is one of the space. -/
def ofWord? (w : UInt64) : Option (Address space) :=
  if space.isValid w then some ⟨w⟩ else none

/-- The address of the page that holds an address. -/
def pageDown (a : Address space) : Address space := ⟨a.val &&& ~~~pageMask⟩

/-- The offset of an address into its page. -/
def pageOffset (a : Address space) : UInt64 := a.val &&& pageMask

/-- Whether an address is the start of a page. -/
def isPageAligned (a : Address space) : Bool := a.pageOffset == 0

/-- The sum with an offset, unless it leaves the word. -/
def add? (a : Address space) (n : UInt64) : Option (Address space) :=
  if a.val.toNat + n.toNat < UInt64.size then some ⟨a.val + n⟩ else none

/-- The difference to an offset, unless it is negative. -/
def sub? (a : Address space) (n : UInt64) : Option (Address space) :=
  if n ≤ a.val then some ⟨a.val - n⟩ else none

/-- An address with the bits of a word added. -/
def lor (a : Address space) (w : UInt64) : Address space := ⟨a.val ||| w⟩

/-- An address with only the bits of a word kept. -/
def land (a : Address space) (w : UInt64) : Address space := ⟨a.val &&& w⟩

/-- The address of the byte at an offset, modulo the size of a word. -/
def plus (a : Address space) (n : UInt64) : Address space := ⟨a.val + n⟩

def text (a : Address space) : String := Text.wrapped space.name (hex a.val.toNat)

instance : Ord (Address space) := ⟨compareOn Address.val⟩

end Address

end Hypervisor
