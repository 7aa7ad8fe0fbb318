import Hypervisor.Ept.Sweep
import Hypervisor.Guest.IoBitmap
import Hypervisor.Guest.MsrArea
import Hypervisor.Guest.Population
import Hypervisor.Proofs.Memory.References
import Hypervisor.Proofs.Upholds

/-!
# Addresses are handed out once

Pages are allocated in increasing order, and nothing takes the order back, so a new page has an
address that no page has had before.  This needs no assumption on memory: a walk through a table that
is none only reads and writes pages.
-/

namespace Hypervisor

open Hypervisor.Action

namespace Memory

structure Steady (H : Memory → Prop) : Prop where
  retained : ∀ {m} p, H m → H (m.retained p)
  released : ∀ {m} p, H m → H (m.released p)
  edited : ∀ {m} a f, H m → H (m.edited a f)

variable {n : Nat} {ε : Type}

namespace Steady

variable {H : Memory → Prop} {E : ε → Memory → Prop}

theorem retain (hH : Steady H) (p : Hpa) :
    (Memory.retain p : MemoryM ε Unit).Upholds H (fun _ _ => True) E :=
  fun _ h => retain_ends (fun _ => hH.retained p h) fun _ _ => trivial

theorem release (hH : Steady H) (p : Hpa) :
    (Memory.release p : MemoryM ε Unit).Upholds H (fun _ _ => True) E :=
  fun _ h => release_ends (fun _ => hH.released p h) fun _ _ => trivial

theorem updatePage (hH : Steady H) (a : Hpa) (f : PageWords → PageWords) :
    (Memory.updatePage a f : MemoryM ε Unit).Upholds H (fun _ _ => True) E :=
  fun _ h => hH.edited a f h

end Steady

theorem pageWords_upholds {H : Memory → Prop} {E : ε → Memory → Prop} (a : Hpa) :
    (pageWords a : MemoryM ε PageWords).Upholds H (fun _ _ => True) E :=
  fun _ h => pageWords_ends (fun _ => h) fun _ _ => trivial

theorem Steady.editPage {H : Memory → Prop} {E : ε → Memory → Prop} (hH : Steady H) (a : Hpa)
    (f : PageWords → PageWords) : (Memory.editPage a f : MemoryM ε Unit).Upholds H (fun _ _ => True) E :=
  Upholds.bind (pageWords_upholds a) fun _ => hH.updatePage a f

/-- All addresses below the bound may have been handed out. -/
def Past (n : Nat) (m : Memory) : Prop := n ≤ m.next.toNat

theorem past_steady (n : Nat) : Steady (Past n) where
  retained := fun _ h => h
  released := fun _ h => h
  edited := fun _ _ h => h

theorem alloc_past : (alloc : MemoryM ε (Option Hpa)).Upholds (Past n) fun _ _ => True := by
  intro m h
  refine alloc_ends (fun m' _ hnext => ?_) fun m' p hp => ?_
  · rwa [Past, hnext]
  · exact Nat.le_trans h (by have := hp.next; omega)

theorem retain_past (p : Hpa) : (retain p : MemoryM ε Unit).Upholds (Past n) fun _ _ => True :=
  (past_steady n).retain p

theorem release_past (p : Hpa) : (release p : MemoryM ε Unit).Upholds (Past n) fun _ _ => True :=
  (past_steady n).release p

theorem pageWords_past (a : Hpa) :
    (pageWords a : MemoryM ε PageWords).Upholds (Past n) fun _ _ => True :=
  pageWords_upholds a

theorem updatePage_past (a : Hpa) (f : PageWords → PageWords) :
    (updatePage a f : MemoryM ε Unit).Upholds (Past n) fun _ _ => True :=
  (past_steady n).updatePage a f

theorem allocRetained_past :
    (allocRetained : MemoryM ε (Option Hpa)).Upholds (Past n) fun _ _ => True := by
  refine Upholds.bind alloc_past fun p => ?_
  split
  · exact Upholds.pure
  · exact Upholds.bind (retain_past _) fun _ => Upholds.pure

theorem virtual_upholds {H : Memory → Prop} {E : ε → Memory → Prop} (a : Hpa) :
    (virtual a : MemoryM ε Hva).Upholds H (fun _ _ => True) E :=
  Upholds.bind (pageWords_upholds a) fun _ => Upholds.pure

theorem virtual_past (a : Hpa) : (virtual a : MemoryM ε Hva).Upholds (Past n) fun _ _ => True :=
  virtual_upholds a

theorem editPage_past (a : Hpa) (f : PageWords → PageWords) :
    (editPage a f : MemoryM ε Unit).Upholds (Past n) fun _ _ => True :=
  (past_steady n).editPage a f

end Memory

open Memory

variable {n : Nat} {ε : Type}

namespace Slot

variable {H : Memory → Prop} {E : ε → Memory → Prop}

theorem read_upholds (s : Slot) : (s.read : MemoryM ε Entry).Upholds H (fun _ _ => True) E :=
  Upholds.bind (pageWords_upholds _) fun _ => Upholds.pure

theorem write_upholds (hH : Steady H) (s : Slot) (e : Entry) :
    (s.write e : MemoryM ε Unit).Upholds H (fun _ _ => True) E :=
  hH.updatePage _ _

theorem read_past (s : Slot) : (s.read : MemoryM ε Entry).Upholds (Past n) fun _ _ => True :=
  read_upholds s

theorem write_past (s : Slot) (e : Entry) :
    (s.write e : MemoryM ε Unit).Upholds (Past n) fun _ _ => True :=
  write_upholds (past_steady n) s e

end Slot

namespace Ept

theorem lookupFrom_past (gpa : Gpa) (create : Bool) (level : Nat) (table : Hpa) :
    (lookupFrom gpa create level table).Upholds (Past n) fun _ _ => True := by
  induction level generalizing table with
  | zero => exact Upholds.bind (pageWords_past table) fun _ => Upholds.pure
  | succ level ih =>
      refine Upholds.bind (Slot.read_past _) fun entry => ?_
      split
      · exact ih _
      · refine Upholds.bind Upholds.require fun _ => Upholds.bind allocRetained_past fun page => ?_
        refine Upholds.bind Upholds.orFail fun page => Upholds.bind Upholds.ofExcept fun entry => ?_
        exact Upholds.bind (Slot.write_past _ _) fun _ => ih page

theorem lookup_past (t : Ept) (gpa : Gpa) (create : Bool) :
    (t.lookup gpa create).Upholds (Past n) fun _ _ => True :=
  Upholds.bind Upholds.orFail fun _ => lookupFrom_past gpa create _ _

section Reads

variable {H : Memory → Prop} {E : ε → Memory → Prop}

theorem walkFrom_upholds (gpa : Gpa) (level : Nat) (table : Hpa) :
    (walkFrom gpa level table).Upholds H fun _ _ => True := by
  induction level generalizing table with
  | zero =>
      refine Upholds.bind (Slot.read_upholds _) fun _ => Upholds.bind Upholds.orFail fun _ => ?_
      exact Upholds.pure
  | succ level ih =>
      exact Upholds.bind (Slot.read_upholds _) fun _ => Upholds.bind Upholds.orFail fun next => ih next

theorem walk_upholds (t : Ept) (gpa : Gpa) : (t.walk gpa).Upholds H fun _ _ => True :=
  Upholds.bind Upholds.orFail fun _ => walkFrom_upholds gpa _ _

theorem resolve_upholds (t : Ept) (gpa : Gpa) :
    (t.resolve gpa : MemoryM ε (Option Hva)).Upholds H (fun _ _ => True) E := by
  refine Upholds.bind (Upholds.attempt (walk_upholds t _)) fun r => ?_
  split
  · exact Upholds.pure
  · split
    · exact Upholds.pure
    · exact Upholds.bind (virtual_upholds _) fun _ => Upholds.pure

end Reads

theorem walk_past (t : Ept) (gpa : Gpa) : (t.walk gpa).Upholds (Past n) fun _ _ => True :=
  walk_upholds t gpa

theorem resolve_past (t : Ept) (gpa : Gpa) :
    (t.resolve gpa : MemoryM ε (Option Hva)).Upholds (Past n) fun _ _ => True :=
  resolve_upholds t gpa

theorem map_past (t : Ept) (source : Hva) (gpa : Gpa) (perm : Permission) (overwrite : Bool) :
    (t.map source gpa perm overwrite).Upholds (Past n) fun _ _ => True := by
  refine Upholds.bind Upholds.require fun _ => Upholds.bind Upholds.require fun _ => ?_
  refine Upholds.bind Upholds.require fun _ => Upholds.get_bind fun m _ => ?_
  refine Upholds.bind Upholds.orFail fun page => Upholds.bind (lookup_past t gpa true) fun slot => ?_
  refine Upholds.bind (Slot.read_past slot) fun entry => Upholds.bind Upholds.require fun _ => ?_
  refine Upholds.bind (retain_past page) fun _ => ?_
  have hwrite : ∀ e : Entry, (slot.write (e.withFlags (Permission.leafFlags (perm &&& Permission.full))) :
      MemoryM EptError Unit).Upholds (Past n) fun _ _ => True := fun _ => Slot.write_past _ _
  split
  · refine Upholds.bind (release_past _) fun _ => ?_
    exact Upholds.bind Upholds.ofExcept fun e => hwrite e
  · exact Upholds.bind Upholds.ofExcept fun e => hwrite e

theorem insertPage_past (t : Ept) (page : Hpa) (gpa : Gpa) (perm : Permission) :
    (t.insertPage page gpa perm).Upholds (Past n) fun _ _ => True :=
  Upholds.bind (virtual_past page) fun _ => map_past t _ gpa perm false

theorem edit_past (t : Ept) (gpa : Gpa) (create : Bool) (edits : List Entry.Edit) :
    (t.edit gpa create edits).Upholds (Past n) fun _ _ => True := by
  refine Upholds.bind (lookup_past t gpa create) fun slot => ?_
  refine Upholds.bind (Upholds.forM fun change _ => ?_) fun _ => Slot.read_past slot
  refine Upholds.bind (Slot.read_past slot) fun entry => Upholds.bind Upholds.ofExcept fun _ => ?_
  exact Slot.write_past slot _

theorem new_past : Ept.new.Upholds (Past n) fun _ _ => True :=
  Upholds.bind allocRetained_past fun _ => Upholds.bind Upholds.orFail fun _ => Upholds.pure

theorem sweep_upholds {H : Memory → Prop} {E : ε → Memory → Prop} (hH : Steady H)
    (positions : List Position) :
    (sweep positions : MemoryM ε Unit).Upholds H (fun _ _ => True) E := by
  induction positions using sweep.induct with
  | case1 =>
      rw [sweep]
      exact Upholds.pure
  | case2 here outer hi ihnext ihenter =>
      rw [sweep, dif_pos hi]
      refine Upholds.bind (Slot.read_upholds _) fun entry => ?_
      split
      · exact ihnext
      · refine Upholds.bind (Slot.write_upholds hH _ _) fun _ => ?_
        split
        · exact ihenter _ ‹_›
        · exact Upholds.bind (hH.release _) fun _ => ihnext
  | case3 here outer hi hend =>
      rw [sweep, dif_neg hi, if_pos hend]
      exact Upholds.pure
  | case4 here outer hi hmore ih =>
      rw [sweep, dif_neg hi, if_neg hmore]
      exact Upholds.bind (hH.release _) fun _ => ih

theorem clear_past (t : Ept) : t.clear.Upholds (Past n) fun _ _ => True :=
  Upholds.bind Upholds.orFail fun _ => sweep_upholds (past_steady n) _

theorem populate_past (t : Ept) (gpa : Gpa) : (t.populate gpa).Upholds (Past n) fun _ _ => True := by
  refine Upholds.bind allocRetained_past fun page => Upholds.bind Upholds.orFail fun page => ?_
  refine Upholds.bind (Upholds.attempt (insertPage_past t page gpa _)) fun r => ?_
  refine Upholds.bind (release_past page) fun _ => ?_
  split
  · exact Upholds.pure
  · exact Upholds.fail
  · exact Upholds.fail

theorem onAccess_past (t : Ept) (physSize : UInt64) (gpa : Gpa) :
    (t.onAccess physSize gpa).Upholds (Past n) fun _ _ => True := by
  rw [onAccess]
  split
  · exact Upholds.bind (populate_past t _) fun _ => Upholds.pure
  · refine Upholds.bind (virtual_past _) fun _ => Upholds.bind ?_ fun _ => Upholds.pure
    exact Upholds.mapError (map_past t _ _ _ _)
  · exact Upholds.pure

def addressesFrom (start : UInt64) : (count : Nat) → List Gpa
  | 0 => []
  | count + 1 => (Address.ofWord? start).toList ++ addressesFrom (start + pageSize) count

def pagesOf (physSize : UInt64) : List Gpa :=
  addressesFrom 0 (pagesBetween 0 Layout.holeStart) ++
    addressesFrom Layout.holeEnd (pagesBetween Layout.holeEnd physSize)

theorem populateFrom_eq (t : Ept) (start : UInt64) (count : Nat) :
    t.populateFrom start count = (addressesFrom start count).forM t.populate := by
  induction count generalizing start with
  | zero => rfl
  | succ count ih =>
      rw [populateFrom, addressesFrom, ih]
      cases (Address.ofWord? start : Option Gpa) with
      | none => rfl
      | some g => rfl

theorem populateAll_eq (t : Ept) (physSize : UInt64) :
    t.populateAll physSize = (pagesOf physSize).forM t.populate := by
  rw [populateAll, populateFrom_eq, populateFrom_eq, pagesOf]
  exact List.forM_append.symm

theorem populateAll_past (t : Ept) (physSize : UInt64) :
    (t.populateAll physSize).Upholds (Past n) fun _ _ => True := by
  rw [populateAll_eq]
  exact Upholds.forM fun gpa _ => populate_past t gpa

end Ept

namespace Guest

variable {H : Memory → Prop} {E : ε → Memory → Prop}

theorem interceptEmulatedPorts_upholds (hH : Steady H) (g : Guest) :
    (g.interceptEmulatedPorts : MemoryM ε Unit).Upholds H (fun _ _ => True) E :=
  Upholds.forM fun _ _ => hH.editPage _ _

theorem listMsrs_upholds (hH : Steady H) (g : Guest) (rdmsr : MsrIndex → UInt64) :
    (g.listMsrs rdmsr : MemoryM ε Unit).Upholds H (fun _ _ => True) E :=
  Upholds.bind (hH.editPage _ _) fun _ => hH.editPage _ _

theorem interceptEmulatedPorts_past (g : Guest) :
    (g.interceptEmulatedPorts : MemoryM ε Unit).Upholds (Past n) fun _ _ => True :=
  interceptEmulatedPorts_upholds (past_steady n) g

theorem listMsrs_past (g : Guest) (rdmsr : MsrIndex → UInt64) :
    (g.listMsrs rdmsr : MemoryM ε Unit).Upholds (Past n) fun _ _ => True :=
  listMsrs_upholds (past_steady n) g rdmsr

end Guest

namespace Memory

def Issued (n : Nat) (p : Hpa) (m : Memory) : Prop := n ≤ p.val.toNat ∧ m.Past (p.val.toNat + 1)

/-- All pages that are given are new. -/
theorem allocRetainedMany_ends (count : Nat) {m : Memory} (h : m.Past n) :
    (allocRetainedMany count : MemoryM ε (Option (Vector Hpa count))).Ends m
      (fun r m' => m'.Past n ∧ ∀ v, r = some v → ∀ p ∈ v, m'.Issued n p) (fun _ m' => m'.Past n)
      fun _ _ => True := by
  induction count with
  | zero =>
      refine ⟨h, ?_⟩
      rintro v - p hp
      exact absurd (v.eq_empty ▸ hp) (Vector.not_mem_empty p)
  | succ count ih =>
      rw [allocRetainedMany, ends_bind]
      refine Ends.mono ih (fun r m₁ h₁ => ?_) (fun _ _ h => h) fun _ _ h => h
      cases r with
      | none => exact ⟨h₁.1, nofun⟩
      | some taken =>
          show Ends _ m₁ _ _ _
          rw [ends_bind]
          refine allocRetained_ends (fun m₂ _ hnext => ?_) fun m₂ p hp => ?_
          · have h₂ : m₂.Past n := by
              rw [Past, hnext]
              exact h₁.1
            show Ends _ m₂ _ _ _
            rw [ends_bind]
            refine Ends.mono (Upholds.forM (fun p _ => release_past p) m₂ h₂) (fun _ m₃ h₃ => ?_)
              (fun _ _ h => h) fun _ _ h => h
            exact ⟨h₃, nofun⟩
          · have hle : n ≤ m₁.next.toNat := h₁.1
            have hnext := hp.next
            refine ⟨show n ≤ m₂.next.toNat by omega, ?_⟩
            rintro v hv q hq
            cases hv
            rcases Vector.mem_push.1 hq with hq | rfl
            · obtain ⟨hlow, hhigh⟩ := h₁.2 taken rfl q hq
              have hhigh : q.val.toNat + 1 ≤ m₁.next.toNat := hhigh
              exact ⟨hlow, show _ ≤ m₂.next.toNat by omega⟩
            · have haddress := congrArg UInt64.toNat hp.address
              exact ⟨by omega, show _ ≤ m₂.next.toNat by omega⟩

end Memory

end Hypervisor
