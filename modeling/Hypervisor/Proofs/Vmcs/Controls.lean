import Hypervisor.Proofs.Vmcs.Writes
import Hypervisor.Vmcs.Controls

/-!
# Which translation the controls select

The controls that a guest is given activate the secondary controls and point to the table of the
guest.  Whether they also enable the table is left to the processor: a bit that it does not allow is
silently dropped.
-/

namespace Hypervisor

theorem adjustControls_and {desired : UInt32} {capability bit : UInt64}
    (hbit : desired.toUInt64 &&& bit = bit) :
    (adjustControls desired capability).toUInt64 &&& bit = (capability >>> 32) &&& bit := by
  have hwanted : (desired.toUInt64 ||| capability.toUInt32.toUInt64) &&& bit = bit := by
    rw [Word.or_and, hbit, Word.or_and_absorb]
  rw [adjustControls, UInt32.toUInt64_and, UInt32.toUInt64_or, Word.toUInt64_toUInt32_shiftRight,
    UInt64.and_assoc, UInt64.and_comm (capability >>> 32), ← UInt64.and_assoc, hwanted,
    UInt64.and_comm]

def Cpu.capabilities (c : Cpu) : ControlCapabilities := .read c.processor.rdmsr

theorem Cpu.capabilities_congr {c c' : Cpu} (h : c.processor.msrs = c'.processor.msrs) :
    c.capabilities = c'.capabilities := by
  rw [capabilities, capabilities, Processor.rdmsr_congr h]

namespace ControlBlock

/-- The block makes the secondary controls count and points to the table; `ept` tells whether the
table is enabled. -/
structure Programmed (b : ControlBlock) (t : Ept) (ept : Bool) : Prop where
  secondary : b.read .processorBasedVmexecControls &&& ProcBased.activateSecondary.bits ≠ 0
  enabled : b.read .secondaryVmexecControls &&& ProcBased2.enableEpt.bits ≠ 0 ↔ ept = true
  pointer : t.pointer = some (b.read .eptptr)

theorem SameTranslation.programmed {b b' : ControlBlock} {t : Ept} {ept : Bool}
    (h : b.SameTranslation b') (hb : b.Programmed t ept) : b'.Programmed t ept := by
  refine ⟨?_, ?_, ?_⟩
  · rw [h.primary]
    exact hb.secondary
  · rw [h.secondary]
    exact hb.enabled
  · rw [h.pointer]
    exact hb.pointer

end ControlBlock

namespace Session

open Hypervisor.Action

def capabilities (s : Session) : ControlCapabilities := s.host.cpu.capabilities

variable {caps : ControlCapabilities} {g : Guest}

def configured (caps : ControlCapabilities) (g : Guest) (pointer : UInt64) (b : ControlBlock) :
    ControlBlock :=
  let pinBased := (adjustControls wantedPinBased caps.pinBased).toUInt64
  ((((b.write .pinBasedExecControls pinBased).writeAll (executionControls caps g)).write .eptptr
    pointer).writeAll (switchControls caps g))

theorem read_executionControls (caps : ControlCapabilities) (g : Guest) (b : ControlBlock) :
    (b.writeAll (executionControls caps g)).read .processorBasedVmexecControls =
        (adjustControls wantedProcBased caps.procBased).toUInt64 ∧
      (b.writeAll (executionControls caps g)).read .secondaryVmexecControls =
        (adjustControls wantedProcBased2 caps.procBased2).toUInt64 := by
  constructor
  · exact ControlBlock.read_writeAll_cons b (by simp)
  · exact ControlBlock.read_writeAll_cons (b.write .processorBasedVmexecControls _) (by simp)

theorem read_configured_of_translating (caps : ControlCapabilities) (g : Guest) (pointer : UInt64)
    (b : ControlBlock) {f : Field} (hf : f ∈ Field.translating) :
    (configured caps g pointer b).read f =
      (((b.write .pinBasedExecControls
        (adjustControls wantedPinBased caps.pinBased).toUInt64).writeAll
          (executionControls caps g)).write .eptptr pointer).read f := by
  have hswitch : ∀ f ∈ Field.translating, f ∉ (switchControls caps g).map Prod.fst := by
    simp [Field.translating, switchControls]
  exact ControlBlock.read_writeAll_of_notMem _ (hswitch f hf)

theorem read_configured_primary (caps : ControlCapabilities) (g : Guest) (pointer : UInt64)
    (b : ControlBlock) : (configured caps g pointer b).read .processorBasedVmexecControls =
      (adjustControls wantedProcBased caps.procBased).toUInt64 := by
  rw [read_configured_of_translating _ _ _ _ (by decide),
    ControlBlock.read_write_of_ne _ _ (by decide)]
  exact (read_executionControls caps g _).1

theorem programmed_configured {pointer : UInt64} (hpointer : g.table.pointer = some pointer)
    (hsecondary : caps.hasSecondaryControls = true) (b : ControlBlock) :
    (configured caps g pointer b).Programmed g.table caps.hasEpt := by
  have hprimary2 := (read_executionControls caps g
    (b.write .pinBasedExecControls (adjustControls wantedPinBased caps.pinBased).toUInt64)).2
  simp only [ControlCapabilities.hasSecondaryControls, bne_iff_ne] at hsecondary
  refine ⟨?_, ?_, ?_⟩
  · rw [read_configured_primary, adjustControls_and (by decide)]
    exact hsecondary
  · rw [read_configured_of_translating _ _ _ _ (by decide),
      ControlBlock.read_write_of_ne _ _ (by decide), hprimary2, adjustControls_and (by decide)]
    simp only [ControlCapabilities.hasEpt, ControlCapabilities.hasSecondaryControls, Bool.and_eq_true,
      bne_iff_ne, hsecondary, ne_eq, not_false_iff, true_and]
  · rw [read_configured_of_translating _ _ _ _ (by decide), ControlBlock.read_write]
    exact hpointer

/-- The controls are written one after the other into the block that is current. -/
theorem configureControls_revises {s : Session} {p : Hpa} {Q : Unit → Session → Prop}
    {E : VmError → Session → Prop} {F : Panic → Session → Prop}
    (hcurrent : s.host.cpu.processor.current = some p)
    (hQ : ∀ h pointer, s.host.Revises p h → s.capabilities.hasSecondaryControls = true →
      s.guest.table.pointer = some pointer →
      h.blocks.block p = configured s.capabilities s.guest pointer (s.host.blocks.block p) →
      Q () { s with host := h })
    (hE : ∀ e h, s.host.Revises p h →
      (s.host.cpu.processor.faults = [] → s.guest.table.root ≠ none →
        s.capabilities.hasSecondaryControls = false ∧ e = .eptUnsupported) →
      E e { s with host := h }) :
    configureControls.Ends s Q E F := by
  simp only [configureControls, onHost, ends_bind, ends_get, ends_onPart]
  refine Host.vmwrite_revises hcurrent (fun h₁ r₁ b₁ => ?_)
    fun e h r _ hf => hE e h r fun hnone => absurd hnone hf
  rw [ends_require]
  split
  · rename_i hsecondary
    refine Host.vmwriteAll_revises (r₁.current.trans hcurrent) (fun h₂ r₂ b₂ => ?_)
      fun e h _ r _ _ hf => hE e h (r₁.trans r) fun hnone => absurd (r₁.faultless hnone) hf
    have r₂ := r₁.trans r₂
    cases hpointer : s.guest.table.pointer with
    | none =>
        refine hE _ h₂ r₂ fun _ hroot => absurd ?_ hroot
        exact Option.map_eq_none_iff.1 hpointer
    | some pointer =>
        rw [orFail, ends_pure]
        refine Host.vmwrite_revises (r₂.current.trans hcurrent) (fun h₃ r₃ b₃ => ?_)
          fun e h r _ hf => hE e h (r₂.trans r) fun hnone => absurd (r₂.faultless hnone) hf
        have r₃ := r₂.trans r₃
        refine Host.vmwriteAll_revises (r₃.current.trans hcurrent) (fun h₄ r₄ b₄ => ?_)
          fun e h _ r _ _ hf => hE e h (r₃.trans r) fun hnone => absurd (r₃.faultless hnone) hf
        refine hQ h₄ pointer (r₃.trans r₄) hsecondary hpointer ?_
        rw [b₄, b₃, b₂, b₁]
        rfl
  · rename_i hsecondary
    exact hE _ h₁ r₁ fun _ _ => ⟨Bool.eq_false_iff.2 hsecondary, rfl⟩

theorem configureControls_ends {s : Session} {Q : Unit → Session → Prop}
    {E : VmError → Session → Prop} {F : Panic → Session → Prop}
    (hcurrent : s.host.cpu.processor.current = some s.guest.block)
    (hQ : ∀ h, s.host.Revises s.guest.block h → s.capabilities.hasSecondaryControls = true →
      (h.blocks.block s.guest.block).Programmed s.guest.table s.capabilities.hasEpt →
      Q () { s with host := h })
    (hE : ∀ e h, s.host.Revises s.guest.block h →
      (s.host.cpu.processor.faults = [] → s.guest.table.root ≠ none →
        s.capabilities.hasSecondaryControls = false ∧ e = .eptUnsupported) →
      E e { s with host := h }) :
    configureControls.Ends s Q E F := by
  refine configureControls_revises hcurrent (fun h pointer r hsecondary hpointer hblock => ?_) hE
  refine hQ h r hsecondary ?_
  rw [hblock]
  exact programmed_configured hpointer hsecondary _

end Session

end Hypervisor
