import Hypervisor.Instruction.Dump
import Hypervisor.Proofs.Instructions
import Hypervisor.Proofs.Memory.References
import Hypervisor.Proofs.Upholds

/-!
# Invariants of the host

While a guest runs and its exits are handled, the host logs, asks the kernel, meets injected faults,
and reads the current control block.  An invariant that survives each of these steps survives
everything that is made of them.
-/

namespace Hypervisor

/-- The error rejects an exit; the others tell that the guest was not entered, or that memory ran
out. -/
def VmError.Rejects : VmError → Prop
  | .foreignVmcs | .entry _ | .noMemory | .ept .outOfMemory => False
  | _ => True

/-- The address of the next instruction does not fit in a word. -/
def ControlBlock.Wraps (b : ControlBlock) : Prop :=
  UInt64.size ≤ (b.read .guestCsBase).toNat + (b.read .guestRip).toNat

/-- The invariant survives what the host does without writing a control block.  Any error may come
from a fault that was injected, and then it is the error of that fault. -/
structure Host.Calm (H : Host → Prop) (F : Panic → Host → Prop)
    (E : VmError → Host → Prop := fun _ => H) : Prop where
  overflow : ∀ {h p}, h.cpu.processor.current = some p → (h.blocks.block p).Wraps → H h →
    F .addOverflow h
  log : ∀ {h} l, H h → H { h with log := l }
  kernel : ∀ {h} requests, H h → H { h with kernel := { h.kernel with requests := requests } }
  /-- Injected faults have met a call. -/
  spent : ∀ {h : Host} p f, H h → H (h.spent p f)
  refused : ∀ {e h}, e.Rejects → H h → E e h := by exact fun _ h => h
  struck : ∀ {h}, H h → ∀ x ∈ h.cpu.processor.faults, ∀ {h'}, H h' → E x.error h' := by
    exact fun _ _ _ _ h => h

namespace Host

open Hypervisor.Action

variable {H : Host → Prop} {F : Panic → Host → Prop} {E : VmError → Host → Prop}

namespace Calm

theorem say (hs : Calm H F E) (level : LogLevel) (text : String) :
    (Host.say level text).Upholds H F E :=
  fun _ h => hs.log _ h

theorem sayOnCpu (hs : Calm H F E) (level : LogLevel) (text : String) :
    (Host.sayOnCpu level text).Upholds H F E :=
  Upholds.get_bind fun _ _ => hs.say level _

theorem onKernel (hs : Calm H F E) {f : Kernel → Kernel}
    (hf : ∀ k, f k = { k with requests := (f k).requests } := by exact fun _ => rfl) :
    (Host.onKernel f).Upholds H F E := by
  intro h hh
  have hkernel := hs.kernel (f h.kernel).requests hh
  rw [← hf] at hkernel
  exact hkernel

theorem processor : Host.processor.Upholds H F E := Upholds.get_bind fun _ _ => Upholds.pure

theorem expose (hs : Calm H F E) (p : Primitive) (f : Option Field) :
    (Host.expose p f).Upholds H F E :=
  fun _ hh => expose_ends (hs.spent p f hh) fun x hx => hs.struck hh x hx (hs.spent p f hh)

theorem vmread (hs : Calm H F E) (f : Field) : (Host.vmread f).Upholds H F E := by
  intro h hh
  have hspent := hs.spent .vmread (some f) hh
  exact vmread_ends (fun _ _ => hspent) (fun _ => hs.refused trivial hspent) fun x hx =>
    hs.struck hh x hx hspent

/-- A write to the control block that is current. -/
theorem vmwrite (hs : Calm H F E) {f : Field} {w : UInt64} (hw : ∀ {h p},
      h.cpu.processor.current = some p → H h →
      H { h with blocks := h.blocks.update p fun b => b.write f w }) :
    (Host.vmwrite f w).Upholds H F E := by
  intro h hh
  have hspent := hs.spent .vmwrite (some f) hh
  exact vmwrite_ends (fun p hp => hw (h := h.spent .vmwrite (some f)) hp hspent)
    (fun _ => hs.refused trivial hspent) fun x hx => hs.struck hh x hx hspent

theorem vmwriteAll (hs : Calm H F E) {writes : List (Field × UInt64)} (hw : ∀ w ∈ writes, ∀ {h p},
      h.cpu.processor.current = some p → H h →
      H { h with blocks := h.blocks.update p fun b => b.write w.1 w.2 }) :
    (Host.vmwriteAll writes).Upholds H F E :=
  Upholds.forM fun w hmem => hs.vmwrite fun hp hh => hw w hmem hp hh

theorem decode (hs : Calm H F E) : (ExitReason.decode Host.vmread).Upholds H F E := by
  refine Upholds.bind (hs.vmread _) fun word => Upholds.bind ?_ fun _ => Upholds.pure
  unfold ExitCause.decode
  refine Upholds.ite (fun _ => Upholds.bind (hs.vmread _) fun _ => Upholds.pure) fun _ => ?_
  refine Upholds.ite (fun _ => Upholds.bind (hs.vmread _) fun _ => Upholds.pure) fun _ => ?_
  refine Upholds.ite (fun _ => ?_) fun _ => Upholds.pure
  exact Upholds.bind (hs.vmread _) fun _ => Upholds.bind (hs.vmread _) fun _ => Upholds.pure

theorem shownField (hs : Calm H F E) (hback : ∀ e h, E e h → H h) (f : Field) :
    (Host.shownField f).Upholds H F E := by
  refine Upholds.bind (Upholds.attempt_of (hs.vmread f) hback) fun r => ?_
  split
  · exact Upholds.pure
  · exact Upholds.pure

theorem guestCr0 (hs : Calm H F E) : Host.guestCr0.Upholds H F E :=
  Upholds.bind (hs.vmread _) fun _ => Upholds.pure

theorem linearRip (hs : Calm H F E) : Host.linearRip.Upholds H F E := by
  intro h hh
  have hbase := hs.spent .vmread (some .guestCsBase) hh
  rw [Host.linearRip, ends_bind]
  refine vmread_ends (fun p hp => ?_) (fun _ => hs.refused trivial hbase) fun x hx =>
    hs.struck hh x hx hbase
  have hrip := hs.spent .vmread (some .guestRip) hbase
  rw [ends_bind]
  refine vmread_ends (fun q hq => ?_) (fun _ => hs.refused trivial hrip) fun x hx =>
    hs.struck hbase x hx hrip
  obtain rfl : q = p := Option.some.inj (hq.symm.trans hp)
  rw [ends_ite]
  split
  · exact hrip
  · exact hs.overflow (p := q) hp (Nat.le_of_not_lt ‹_›) hrip

theorem bytesAt (v : Hva) (count : Nat) : (Host.bytesAt v count).Upholds H F E := by
  intro h hh
  simp only [Host.bytesAt, Host.onMemory, Host.onPlatform, Platform.onMemory, ends_bind, ends_get]
  cases hp : h.memory.physical? v with
  | none => exact hh
  | some p =>
      have hlive := (Memory.live_of_physical? hp).1
      simp only [ends_bind, ends_onPart, ends_pure]
      exact Memory.pageWords_ends (fun _ => hh) fun _ hfree => absurd hlive hfree

variable {disassemble : Disassembler} {resolve : Gpa → MemoryM VmError (Option Hva)}

theorem fetchInstruction (hs : Calm H F E)
    (hresolve : ∀ gpa, (Host.onMemory (resolve gpa)).Upholds H F E) :
    (Host.fetchInstruction disassemble resolve).Upholds H F E := by
  have hrefused : ∀ h, H h → E .undecodable h := fun _ => hs.refused trivial
  refine Upholds.bind hs.guestCr0 fun _ => Upholds.bind (Upholds.require_of hrefused) fun _ => ?_
  refine Upholds.bind hs.linearRip fun _ => Upholds.bind (Upholds.orFail_of hrefused) fun gpa => ?_
  refine Upholds.bind (hresolve _) fun _ => Upholds.bind (Upholds.orFail_of hrefused) fun page => ?_
  refine Upholds.bind (bytesAt _ _) fun _ => Upholds.bind hs.guestCr0 fun _ => ?_
  exact Upholds.bind (Upholds.orFail_of hrefused) fun _ => Upholds.pure

theorem dump (hs : Calm H F E) (hresolve : ∀ gpa, (Host.onMemory (resolve gpa)).Upholds H F E)
    (hback : ∀ e h, E e h → H h := by exact fun _ _ h => h) :
    (Host.dump disassemble resolve).Upholds H F E := by
  refine Upholds.bind (hs.shownField hback _) fun _ => Upholds.bind (hs.shownField hback _) fun _ => ?_
  refine Upholds.bind (hs.shownField hback _) fun _ => Upholds.bind (hs.say _ _) fun _ => ?_
  refine Upholds.bind (hs.shownField hback _) fun _ => Upholds.bind (hs.shownField hback _) fun _ => ?_
  refine Upholds.bind (hs.shownField hback _) fun _ => Upholds.bind (hs.say _ _) fun _ => ?_
  refine Upholds.bind (hs.shownField hback _) fun _ => Upholds.bind (hs.say _ _) fun _ => ?_
  refine Upholds.bind (Upholds.attempt_of (hs.fetchInstruction hresolve) hback) fun r => ?_
  split
  · exact hs.say _ _
  · exact Upholds.pure

end Calm

theorem say_unfailing (level : LogLevel) (text : String) : (say level text).Unfailing :=
  fun _ => trivial

theorem sayOnCpu_unfailing (level : LogLevel) (text : String) : (sayOnCpu level text).Unfailing :=
  Raises.bind Raises.get fun _ => say_unfailing _ _

theorem shownField_unfailing (f : Field) : (shownField f).Unfailing := by
  refine Raises.bind Raises.attempt fun r => ?_
  split
  · exact Raises.pure
  · exact Raises.pure

theorem dump_unfailing (disassemble : Disassembler) (resolve : Gpa → MemoryM VmError (Option Hva)) :
    (dump disassemble resolve).Unfailing := by
  refine Raises.bind (shownField_unfailing _) fun _ => ?_
  refine Raises.bind (shownField_unfailing _) fun _ => ?_
  refine Raises.bind (shownField_unfailing _) fun _ => ?_
  refine Raises.bind (say_unfailing _ _) fun _ => ?_
  refine Raises.bind (shownField_unfailing _) fun _ => ?_
  refine Raises.bind (shownField_unfailing _) fun _ => ?_
  refine Raises.bind (shownField_unfailing _) fun _ => ?_
  refine Raises.bind (say_unfailing _ _) fun _ => ?_
  refine Raises.bind (shownField_unfailing _) fun _ => ?_
  refine Raises.bind (say_unfailing _ _) fun _ => ?_
  refine Raises.bind Raises.attempt fun r => ?_
  split
  · exact say_unfailing _ _
  · exact Raises.pure

end Host

end Hypervisor
