import Hypervisor.Ept.Entry
import Hypervisor.Memory.Allocator

/-!
# The extended page table

The table translates guest-physical to host-physical pages.  It is a tree of four levels of table
pages with 512 entries each; nine bits of the guest-physical address choose the entry on each level.
The table pages live in host memory, and the table itself is no more than the address of its root.
Intermediate entries permit every access, since the processor combines the permissions on the way.
-/

namespace Hypervisor

/-- An extended page table. -/
structure Ept where
  root : Option Hpa
  deriving DecidableEq

/-- A place for an entry in a table page. -/
structure Slot where
  table : Hpa
  index : Fin wordsPerPage
  deriving DecidableEq

namespace Slot

variable {ε : Type}

/-- The entry in a place, if its table page holds the words. -/
def entryIn (s : Slot) (ws : PageWords) : Entry := ⟨ws[s.index]⟩

/-- The words of a table page with another entry in a place. -/
def storeIn (s : Slot) (e : Entry) (ws : PageWords) : PageWords := ws.set s.index e.raw

/-- The entry in a place. -/
def read (s : Slot) : MemoryM ε Entry := do
  return s.entryIn (← Memory.pageWords s.table)

/-- Stores an entry in a place. -/
def write (s : Slot) (e : Entry) : MemoryM ε Unit := Memory.updatePage s.table (s.storeIn e)

end Slot

namespace Ept

def levels : Nat := 4

def new : MemoryM EptError Ept := do
  return ⟨some (← Action.orFail (← Memory.allocRetained) .outOfMemory)⟩

def text (t : Ept) : String :=
  Text.record "ExtendedPageTable" [("root", Text.option Address.text t.root)]

/-- The word that makes a processor use the table; bits 5:3 are one less than the number of levels. -/
def pointer (t : Ept) : Option UInt64 := t.root.map fun p => p.val ||| 0x18

/-- The index of the entry for an address in a table page of a level. -/
def index (gpa : Gpa) (level : Nat) : Fin wordsPerPage :=
  wordIndex (gpa.val.toNat >>> (pageShift + 9 * level))

/-- The place of the leaf for an address below a table page of a level. -/
def lookupFrom (gpa : Gpa) (create : Bool) : (level : Nat) → (table : Hpa) → MemoryM EptError Slot
  | 0, table => do
      let _ ← (Memory.pageWords table : MemoryM EptError PageWords)
      return ⟨table, index gpa 0⟩
  | level + 1, table => do
      let slot : Slot := ⟨table, index gpa (level + 1)⟩
      let entry ← slot.read
      match entry.target with
      | some next => lookupFrom gpa create level next
      | none =>
          Action.require create .notExist
          let page ← Action.orFail (← Memory.allocRetained) .outOfMemory
          slot.write ((← Action.ofExcept (entry.withTarget page)).withFlags EntryFlags.full)
          lookupFrom gpa create level page

/-- The place of the leaf for an address. With `create`, missing table pages are added on the way. -/
def lookup (t : Ept) (gpa : Gpa) (create : Bool) : MemoryM EptError Slot := do
  lookupFrom gpa create (levels - 1) (← Action.orFail t.root .invalidRoot)

/-- The leaf for an address below a table page of a level. -/
def walkFrom (gpa : Gpa) : (level : Nat) → (table : Hpa) → MemoryM EptError Entry
  | level, table => do
      let entry ← Slot.read ⟨table, index gpa level⟩
      let next ← Action.orFail entry.target .notExist
      match level with
      | 0 => return entry
      | level + 1 => walkFrom gpa level next

/-- The leaf for an address, if it is present. -/
def walk (t : Ept) (gpa : Gpa) : MemoryM EptError Entry := do
  walkFrom gpa (levels - 1) (← Action.orFail t.root .invalidRoot)

variable {ε : Type}

/-- The host virtual address that backs a guest-physical one. -/
def resolve (t : Ept) (gpa : Gpa) : MemoryM ε (Option Hva) := do
  match ← Action.attempt (t.walk gpa.pageDown) with
  | .error _ => return none
  | .ok entry =>
      match entry.target with
      | none => return none
      | some page => return some ((← Memory.virtual page).plus gpa.pageOffset)

/-- Maps the page at a host virtual address. A page that was mapped there before is replaced only
with `overwrite`, and loses its reference. -/
def map (t : Ept) (source : Hva) (gpa : Gpa) (perm : Permission) (overwrite : Bool) :
    MemoryM EptError Unit := do
  Action.require (source.isPageAligned && gpa.isPageAligned) .unaligned
  let perm := perm &&& Permission.full
  Action.require (!perm.isEmpty) .emptyPermission
  Action.require (!perm.contains Permission.write || perm.contains Permission.read) .writeWithoutRead
  let page ← Action.orFail ((← get).physical? source) .notExist
  let slot ← t.lookup gpa true
  let entry ← slot.read
  Action.require (entry.target.isNone || overwrite) .duplicated
  Memory.retain page
  match entry.target with
  | some old => Memory.release old
  | none => pure ()
  slot.write ((← Action.ofExcept (entry.withTarget page)).withFlags (Permission.leafFlags perm))

/-- Maps a page where none is mapped. -/
def insertPage (t : Ept) (page : Hpa) (gpa : Gpa) (perm : Permission) : MemoryM EptError Unit := do
  t.map (← Memory.virtual page) gpa perm false

/-- Changes the leaf for an address by the edits in turn, and gives the entry that results. The
first edit that fails stops the others. -/
def edit (t : Ept) (gpa : Gpa) (create : Bool) (edits : List Entry.Edit) :
    MemoryM EptError Entry := do
  let slot ← t.lookup gpa create
  edits.forM fun change => do
    slot.write (← Action.ofExcept ((← slot.read).apply change))
  slot.read

end Ept

end Hypervisor
