import Hypervisor.Ept.Table

/-!
# Sweeping a table

A sweep visits every entry below a table page and releases what the entries refer to: a mapped page
when its leaf is visited, and a table page after all of its entries.  The root stays allocated and
ends up empty.  The sweep keeps its position on each level instead of recursing, and each step
lessens the number of visits that are left.
-/

namespace Hypervisor.Ept

/-- A position in a table page: the entries before `next` have been visited. -/
structure Position where
  table : Hpa
  next : Nat
  deriving DecidableEq

/-- A bound on the visits that are left, for the positions from the innermost table outward. A table
page on the way costs more than all entries below it. -/
def visitsLeft : List Position → Nat
  | [] => 0
  | here :: outer =>
      (wordsPerPage - here.next + 1) * Nat.pow 1024 (levels - 1 - outer.length) + visitsLeft outer

theorem visitsLeft_next (here : Position) (outer : List Position)
    (h : here.next < wordsPerPage) :
    visitsLeft ({ here with next := here.next + 1 } :: outer) < visitsLeft (here :: outer) := by
  have hw : 0 < Nat.pow 1024 (levels - 1 - outer.length) := Nat.pow_pos (by decide)
  simp only [visitsLeft, Nat.add_lt_add_iff_right]
  exact Nat.mul_lt_mul_of_pos_right (by omega) hw

theorem visitsLeft_enter (here : Position) (outer : List Position) (page : Hpa)
    (h : here.next < wordsPerPage) (inner : outer.length < levels - 1) :
    visitsLeft (⟨page, 0⟩ :: { here with next := here.next + 1 } :: outer) <
      visitsLeft (here :: outer) := by
  have hw : (wordsPerPage - 0 + 1) * Nat.pow 1024 (levels - 1 - (outer.length + 1)) <
      Nat.pow 1024 (levels - 1 - outer.length) := by
    have : outer.length = 0 ∨ outer.length = 1 ∨ outer.length = 2 := by
      simp only [levels] at inner
      omega
    rcases this with hl | hl | hl <;> rw [hl] <;> decide
  have hs : wordsPerPage - here.next + 1 = wordsPerPage - (here.next + 1) + 1 + 1 := by omega
  simp only [visitsLeft, List.length_cons]
  rw [hs, Nat.succ_mul (wordsPerPage - (here.next + 1) + 1)]
  generalize (wordsPerPage - (here.next + 1) + 1) * Nat.pow 1024 (levels - 1 - outer.length) = rest
  omega

theorem visitsLeft_leave (here : Position) (outer : List Position) :
    visitsLeft outer < visitsLeft (here :: outer) := by
  have hw : 0 < Nat.pow 1024 (levels - 1 - outer.length) := Nat.pow_pos (by decide)
  have hp := Nat.mul_pos (Nat.succ_pos (wordsPerPage - here.next)) hw
  simp only [visitsLeft]
  exact Nat.lt_add_of_pos_left hp

variable {ε : Type}

/-- Visits what is left, for the positions from the innermost table outward. An entry is cleared
before what it refers to is visited. -/
def sweep : List Position → MemoryM ε Unit
  | [] => pure ()
  | here :: outer => do
      if h : here.next < wordsPerPage then
        let slot : Slot := ⟨here.table, ⟨here.next, h⟩⟩
        match (← slot.read).target with
        | none => sweep ({ here with next := here.next + 1 } :: outer)
        | some page =>
            slot.write .empty
            if _inner : outer.length < levels - 1 then
              sweep (⟨page, 0⟩ :: { here with next := here.next + 1 } :: outer)
            else
              Memory.release page
              sweep ({ here with next := here.next + 1 } :: outer)
      else
        if outer.isEmpty then
          pure ()
        else
          Memory.release here.table
          sweep outer
termination_by positions => visitsLeft positions
decreasing_by
  · exact visitsLeft_next here outer h
  · exact visitsLeft_enter here outer page h _inner
  · exact visitsLeft_next here outer h
  · exact visitsLeft_leave here outer

/-- Releases every page that the table maps, and every table page but the root. -/
def clear (t : Ept) : MemoryM EptError Unit := do
  sweep [⟨← Action.orFail t.root .invalidRoot, 0⟩]

end Hypervisor.Ept
