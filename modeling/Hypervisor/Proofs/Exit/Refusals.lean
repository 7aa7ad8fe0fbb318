import Hypervisor.Exit.Hypercall
import Hypervisor.Guest.IoBitmap
import Hypervisor.Guest.MsrArea
import Hypervisor.Proofs.Exit.Host

/-!
# Refusals

Work on the memory of a guest fails for want of memory or because of its table, if it fails at all.
-/

namespace Hypervisor

open Hypervisor.Action

def VmError.OfMemory : VmError → Prop
  | .noMemory | .ept _ => True
  | _ => False

theorem VmError.OfMemory.handled {e : VmError} (h : e.OfMemory) (reason : ExitReason) :
    e ≠ .unhandledExit reason := by
  rintro rfl
  exact h

namespace Memory

variable {ε : Type} {R : ε → Prop}

theorem pageWords_raises (a : Hpa) : (pageWords a : MemoryM ε PageWords).Raises R :=
  fun _ => pageWords_ends (fun _ => trivial) fun _ _ => trivial

theorem virtual_raises (a : Hpa) : (virtual a : MemoryM ε Hva).Raises R :=
  Raises.bind (pageWords_raises a) fun _ => Raises.pure

theorem editPage_raises (a : Hpa) (f : PageWords → PageWords) :
    (editPage a f : MemoryM ε Unit).Raises R :=
  Raises.bind (pageWords_raises a) fun _ => fun _ => trivial

theorem release_raises (p : Hpa) : (release p : MemoryM ε Unit).Raises R :=
  fun _ => release_ends (fun _ => trivial) fun _ _ => trivial

theorem allocRetained_raises : (allocRetained : MemoryM ε (Option Hpa)).Raises R :=
  fun _ => allocRetained_ends (fun _ _ _ => trivial) fun _ _ _ => trivial

end Memory

namespace Ept

open Memory

theorem resolve_raises {ε : Type} {R : ε → Prop} (t : Ept) (gpa : Gpa) :
    (t.resolve gpa : MemoryM ε (Option Hva)).Raises R := by
  refine Raises.bind Raises.attempt fun r => ?_
  split
  · exact Raises.pure
  · split
    · exact Raises.pure
    · exact Raises.bind (virtual_raises _) fun _ => Raises.pure

theorem populate_raises (t : Ept) (gpa : Gpa) : (t.populate gpa).Raises VmError.OfMemory := by
  refine Raises.bind allocRetained_raises fun page => Raises.bind (Raises.orFail trivial) fun _ => ?_
  refine Raises.bind Raises.attempt fun r => Raises.bind (release_raises _) fun _ => ?_
  split
  · exact Raises.pure
  · exact Raises.fail trivial
  · exact Raises.fail trivial

theorem onAccess_raises (t : Ept) (physSize : UInt64) (gpa : Gpa) :
    (t.onAccess physSize gpa).Raises VmError.OfMemory := by
  rw [onAccess]
  split
  · exact Raises.bind (populate_raises _ _) fun _ => Raises.pure
  · refine Raises.bind (virtual_raises _) fun _ => Raises.bind ?_ fun _ => Raises.pure
    exact Raises.mapError fun _ => trivial
  · exact Raises.pure

end Ept

namespace Guest

variable {ε : Type} {R : ε → Prop}

theorem interceptEmulatedPorts_raises (g : Guest) :
    (g.interceptEmulatedPorts : MemoryM ε Unit).Raises R :=
  Raises.bind (Memory.editPage_raises _ _) fun _ =>
    Raises.bind (Memory.editPage_raises _ _) fun _ => Raises.pure

theorem listMsrs_raises (g : Guest) (rdmsr : MsrIndex → UInt64) :
    (g.listMsrs rdmsr : MemoryM ε Unit).Raises R :=
  Raises.bind (Memory.editPage_raises _ _) fun _ => Memory.editPage_raises _ _

end Guest

namespace Session

variable {α : Type} {R : VmError → Prop}

theorem onMemory_raises {x : MemoryM VmError α} (hx : x.Raises R) : (onMemory x).Raises R :=
  hx.onPart.onPart.onPart

theorem memoryMapPage_raises : memoryMapPage.Raises VmError.OfMemory := by
  refine Raises.bind Raises.get fun s => ?_
  refine Raises.bind (onMemory_raises (Ept.resolve_raises _ _)) fun page => ?_
  split
  · exact Raises.pure
  · refine Raises.bind (onMemory_raises (Ept.onAccess_raises _ _ _)) fun _ => ?_
    refine Raises.bind (onMemory_raises (Ept.resolve_raises _ _)) fun page => ?_
    exact Raises.orFail trivial

theorem giveMemoryMap_raises : giveMemoryMap.Raises VmError.OfMemory := by
  refine Raises.bind memoryMapPage_raises fun page => Raises.bind Raises.get fun s => ?_
  split
  · exact Raises.bind (onMemory_raises fun _ => trivial) fun _ => fun _ => trivial
  · exact fun _ => trivial

end Session

end Hypervisor
