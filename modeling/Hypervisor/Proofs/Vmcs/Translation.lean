import Hypervisor.Processor
import Hypervisor.Proofs.Word

/-!
# Which controls translate guest memory

Three fields of a control block decide whether and how the memory of a guest is translated.  Most of
what the hypervisor and the processor write into a control block leaves them as they are.
-/

namespace Hypervisor

/-- The fields that decide how guest memory is translated. -/
def Field.translating : List Field :=
  [.processorBasedVmexecControls, .secondaryVmexecControls, .eptptr]

/-- The primary controls with the bit for the interrupt window set or cleared. -/
def ProcBased.withWindow (on : Bool) (controls : UInt64) : UInt64 :=
  if on then controls ||| interruptWindowExiting.bits
  else controls &&& ~~~interruptWindowExiting.bits

/-- The bit for the interrupt window is not the one for the secondary controls. -/
theorem ProcBased.withWindow_and_secondary (on : Bool) (w : UInt64) :
    withWindow on w &&& activateSecondary.bits = w &&& activateSecondary.bits := by
  cases on with
  | true =>
      have hbits : interruptWindowExiting.bits &&& activateSecondary.bits = 0 := rfl
      rw [withWindow, if_pos rfl, Word.or_and, hbits, UInt64.or_zero]
  | false =>
      have hbits : ~~~interruptWindowExiting.bits &&& activateSecondary.bits =
        activateSecondary.bits := rfl
      rw [withWindow, if_neg Bool.false_ne_true, UInt64.and_assoc, hbits]

namespace ControlBlock

structure SameTranslation (b b' : ControlBlock) : Prop where
  primary : b'.read .processorBasedVmexecControls &&& ProcBased.activateSecondary.bits =
    b.read .processorBasedVmexecControls &&& ProcBased.activateSecondary.bits
  secondary : b'.read .secondaryVmexecControls = b.read .secondaryVmexecControls
  pointer : b'.read .eptptr = b.read .eptptr

variable {b b' b'' : ControlBlock}

theorem SameTranslation.refl (b : ControlBlock) : b.SameTranslation b := ⟨rfl, rfl, rfl⟩

theorem SameTranslation.trans (h : b.SameTranslation b') (h' : b'.SameTranslation b'') :
    b.SameTranslation b'' :=
  ⟨h'.primary.trans h.primary, h'.secondary.trans h.secondary, h'.pointer.trans h.pointer⟩

theorem sameTranslation_of_fields (h : b'.fields = b.fields) : b.SameTranslation b' := by
  have hr : ∀ f, b'.read f = b.read f := by
    intro f
    rw [read, read, h]
  exact ⟨by rw [hr], hr _, hr _⟩

theorem sameTranslation_write {f : Field} (w : UInt64) (h : f ∉ Field.translating) :
    b.SameTranslation (b.write f w) := by
  simp only [Field.translating, List.mem_cons, List.not_mem_nil, or_false, not_or] at h
  exact ⟨by rw [read_write_of_ne b w h.1], read_write_of_ne b w h.2.1, read_write_of_ne b w h.2.2⟩

theorem sameTranslation_writeAll {writes : List (Field × UInt64)}
    (h : ∀ w ∈ writes, w.1 ∉ Field.translating) : b.SameTranslation (b.writeAll writes) := by
  induction writes generalizing b with
  | nil => exact .refl b
  | cons w writes ih =>
      have hfirst : b.SameTranslation (b.write w.1 w.2) :=
        sameTranslation_write w.2 (h w List.mem_cons_self)
      exact hfirst.trans (ih fun v hv => h v (List.mem_cons_of_mem w hv))

theorem sameTranslation_primary {w : UInt64}
    (h : w &&& ProcBased.activateSecondary.bits =
      b.read .processorBasedVmexecControls &&& ProcBased.activateSecondary.bits) :
    b.SameTranslation (b.write .processorBasedVmexecControls w) := by
  refine ⟨?_, read_write_of_ne b w (by decide), read_write_of_ne b w (by decide)⟩
  rw [read_write]
  exact h

end ControlBlock

theorem ScriptedEvent.report_not_translating (e : ScriptedEvent) :
    ∀ w ∈ e.report, w.1 ∉ Field.translating := by
  cases e <;> simp [report, Field.translating]

end Hypervisor
