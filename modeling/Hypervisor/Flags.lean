/-!
# Flags

A flag table lists the named bits of a register or an entry.  A value of `Flags table` is a set of
those bits; a name may stand for several bits, and it is shown when all of them are set.
-/

namespace Hypervisor

/-- A name for one or more bits of a word. -/
structure Flag where
  name : String
  mask : UInt64
  deriving DecidableEq

/-- The flag at a bit position. -/
def Flag.bit (name : String) (position : UInt64) : Flag := ⟨name, (1 : UInt64) <<< position⟩

/-- The named bits of a word, in the order in which they are shown. -/
abbrev FlagTable := List Flag

/-- Every bit that belongs to some flag. -/
def FlagTable.known (table : FlagTable) : UInt64 := table.foldl (fun w f => w ||| f.mask) 0

/-- A set of the bits that a table names. -/
structure Flags (table : FlagTable) where
  bits : UInt64
  known : bits &&& table.known = bits := by decide
  deriving DecidableEq

namespace Flags

variable {table : FlagTable}

/-- The named bits of a word; the others are dropped. -/
def truncate (w : UInt64) : Flags table :=
  ⟨w &&& table.known, by rw [UInt64.and_assoc, UInt64.and_self]⟩

/-- Whether every bit of `b` is in `a`. -/
def contains (a b : Flags table) : Bool := a.bits &&& b.bits == b.bits

/-- Whether some bit of `b` is in `a`. -/
def intersects (a b : Flags table) : Bool := a.bits &&& b.bits != 0

def isEmpty (a : Flags table) : Bool := a.bits == 0

def isAll (a : Flags table) : Bool := a.bits == table.known

private theorem or_and_of_and_eq {a b k : UInt64} (ha : a &&& k = a) (hb : b &&& k = b) :
    (a ||| b) &&& k = a ||| b := by
  rw [← UInt64.toBitVec_inj] at *
  simp only [UInt64.toBitVec_and, UInt64.toBitVec_or] at *
  rw [BitVec.and_or_distrib_right, ha, hb]

instance : OrOp (Flags table) :=
  ⟨fun a b => ⟨a.bits ||| b.bits, or_and_of_and_eq a.known b.known⟩⟩

instance : AndOp (Flags table) :=
  ⟨fun a b => ⟨a.bits &&& b.bits, by rw [UInt64.and_assoc, b.known]⟩⟩

@[simp] theorem bits_or (a b : Flags table) : (a ||| b).bits = a.bits ||| b.bits := rfl

@[simp] theorem bits_and (a b : Flags table) : (a &&& b).bits = a.bits &&& b.bits := rfl

/-- Only the bits that have no name are dropped. -/
theorem truncate_bits (a : Flags table) : truncate a.bits = a := by
  obtain ⟨bits, known⟩ := a
  simp [truncate, known]

/-- The names of the flags that are wholly set. -/
def text (a : Flags table) : String :=
  match table.filter fun f => a.bits &&& f.mask == f.mask with
  | [] => "(empty)"
  | shown => " | ".intercalate (shown.map Flag.name)

end Flags

end Hypervisor
