import Hypervisor.Action
import Hypervisor.Memory.Page
import Std.Data.ExtTreeMap

/-!
# Host memory

Pages of host memory are handed out in increasing order and counted by reference.  A page is live
from its allocation until its last reference is dropped; a new page is zero and has no reference.
The hypervisor reaches a live page through the direct map, which places all of physical memory at a
fixed distance in the lower half of host virtual space.  The video buffer is live from the start.
-/

namespace Hypervisor

instance {space : Space} : Std.TransOrd (Address space) :=
  inferInstanceAs (Std.TransCmp (compareOn Address.val))

instance {space : Space} : Std.LawfulEqOrd (Address space) where
  eq_of_compare {a b} h := by
    have : a.val = b.val := Std.LawfulEqOrd.eq_of_compare (α := UInt64) h
    cases a; cases b; simp_all

/-- A live page. -/
structure Page where
  words : PageWords := .zero
  refs : Nat := 0
  deriving DecidableEq

abbrev PageMap := Std.ExtTreeMap Hpa Page

/-- The memory of the host. -/
structure Memory where
  pages : PageMap
  /-- Where the next page is allocated. -/
  next : UInt64
  /-- How many more allocations succeed, if they are limited. -/
  budget : Option Nat
  /-- How many allocations have failed. -/
  refused : Nat := 0

abbrev MemoryM (ε α : Type) : Type := Action Memory ε α

namespace Memory

/-- Memory in which only the video buffer is live. -/
def fresh : Memory where
  pages := (∅ : PageMap).insert ⟨videoBuffer⟩ { refs := 1 }
  next := 0x1000000
  budget := none

/-- The host virtual address of physical address zero. -/
def directMap : UInt64 := 0x600000000000

/-- The number of references to a page; a free page has none. -/
def refs (m : Memory) (p : Hpa) : Nat := (m.pages[p]?.map Page.refs).getD 0

/-- The physical address that backs a virtual one, if its page is live. -/
def physical? (m : Memory) (v : Hva) : Option Hpa :=
  let p : Hpa := ⟨v.val - directMap⟩
  if m.pages.contains p.pageDown then some p else none

variable {ε : Type}

/-- Allocates a page without references. -/
def alloc : MemoryM ε (Option Hpa) := fun m =>
  if m.budget = some 0 then .ok none { m with refused := m.refused + 1 }
  else
    let m := { m with budget := m.budget.map (· - 1) }
    match (Address.ofWord? m.next : Option Hpa) with
    | none => .ok none { m with refused := m.refused + 1 }
    | some p => .ok (some p) { m with pages := m.pages.insert p {}, next := m.next + pageSize }

/-- Takes a reference on a page. -/
def retain (p : Hpa) : MemoryM ε Unit := fun m =>
  match m.pages[p]? with
  | none => .error (.panic (.retainOfFree p)) m
  | some page => .ok () { m with pages := m.pages.insert p { page with refs := page.refs + 1 } }

/-- Drops a reference on a page. The page is free when no reference is left. -/
def release (p : Hpa) : MemoryM ε Unit := fun m =>
  match m.pages[p]? with
  | none => .error (.panic (.releaseOfFree p)) m
  | some page =>
      if page.refs = 0 then .error (.panic (.releaseOfUnreferenced p)) m
      else if page.refs = 1 then .ok () { m with pages := m.pages.erase p }
      else .ok () { m with pages := m.pages.insert p { page with refs := page.refs - 1 } }

/-- Allocates a page and takes a reference on it. -/
def allocRetained : MemoryM ε (Option Hpa) := do
  match ← alloc with
  | none => return none
  | some p =>
      retain p
      return some p

/-- Allocates and retains `n` pages, or none of them. -/
def allocRetainedMany : (n : Nat) → MemoryM ε (Option (Vector Hpa n))
  | 0 => return some #v[]
  | n + 1 => do
      match ← allocRetainedMany n with
      | none => return none
      | some taken =>
          match ← allocRetained with
          | some p => return some (taken.push p)
          | none =>
              taken.toList.forM release
              return none

/-- The contents of the page that holds an address. -/
def pageWords (a : Hpa) : MemoryM ε PageWords := fun m =>
  match m.pages[a.pageDown]? with
  | none => .error (.panic (.accessToFree a)) m
  | some page => .ok page.words m

/-- The virtual address of a physical one, whose page must be live. -/
def virtual (a : Hpa) : MemoryM ε Hva := do
  let _ ← pageWords a
  return ⟨a.val + directMap⟩

/-- Changes the contents of the page that holds an address; nothing happens if it is free. -/
def updatePage (a : Hpa) (f : PageWords → PageWords) : MemoryM ε Unit := fun m =>
  .ok () { m with
    pages := m.pages.modify a.pageDown fun page => { page with words := f page.words } }

/-- Changes the contents of the page that holds an address, which must be live. -/
def editPage (a : Hpa) (f : PageWords → PageWords) : MemoryM ε Unit := do
  let _ ← pageWords a
  updatePage a f

end Memory

end Hypervisor
