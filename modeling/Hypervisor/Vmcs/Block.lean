import Hypervisor.Memory.Allocator
import Hypervisor.Vmcs.Field

/-!
# Control blocks

The processor keeps the state of a guest in a control block, which the hypervisor names by the
address of its page and reads and writes field by field.  All processors of a machine share them.
-/

namespace Hypervisor

/-- The state that the processors keep for one guest. -/
structure ControlBlock where
  fields : Vector UInt64 Field.count := Vector.replicate Field.count 0
  /-- Whether the guest was entered since the block was last cleared. -/
  launched : Bool := false
  deriving DecidableEq

namespace ControlBlock

/-- The value of a field. -/
def read (b : ControlBlock) (f : Field) : UInt64 := b.fields[f.index]

/-- A block with one field changed. -/
def write (b : ControlBlock) (f : Field) (w : UInt64) : ControlBlock :=
  { b with fields := b.fields.set f.index w }

@[simp] theorem read_write (b : ControlBlock) (f : Field) (w : UInt64) :
    (b.write f w).read f = w := by
  simp [read, write]

theorem read_write_of_ne (b : ControlBlock) {f g : Field} (w : UInt64) (h : f ≠ g) :
    (b.write f w).read g = b.read g := by
  have hi : f.index.val ≠ g.index.val := fun e => h (Field.index_inj.1 (Fin.ext e))
  simp [read, write, Vector.getElem_set_ne _ _ hi]

/-- A block with several fields changed, in order. -/
def writeAll (b : ControlBlock) (writes : List (Field × UInt64)) : ControlBlock :=
  writes.foldl (fun b w => b.write w.1 w.2) b

end ControlBlock

/-- The control blocks of a machine by the addresses of their pages. -/
abbrev ControlBlocks := Std.ExtTreeMap Hpa ControlBlock

namespace ControlBlocks

/-- The block at an address; a block that was never used is zero. -/
def block (bs : ControlBlocks) (p : Hpa) : ControlBlock := bs[p]?.getD {}

/-- The blocks after a change to one of them. -/
def update (bs : ControlBlocks) (p : Hpa) (f : ControlBlock → ControlBlock) : ControlBlocks :=
  bs.insert p (f (bs.block p))

@[simp] theorem block_update (bs : ControlBlocks) (p : Hpa) (f : ControlBlock → ControlBlock) :
    (bs.update p f).block p = f (bs.block p) := by
  simp [block, update]

theorem block_update_of_ne (bs : ControlBlocks) {p q : Hpa} (f : ControlBlock → ControlBlock)
    (h : p ≠ q) : (bs.update p f).block q = bs.block q := by
  simp [block, update, Std.ExtTreeMap.getElem?_insert, h]

end ControlBlocks

end Hypervisor
