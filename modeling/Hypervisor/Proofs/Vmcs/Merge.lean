import Hypervisor.Proofs.Interrupts
import Hypervisor.Proofs.Vmcs.Controls

/-!
# Merging wanted controls into the limits of the processor

The lower half of a capability register says which bits of a control word must be set, and the upper
half which may be set.  Five words are merged from wanted bits and such limits; everything that they
make the processor use belongs to the guest.
-/

namespace Hypervisor

namespace Capability

/-- The bits that a capability register says must be set. -/
def demanded (capability : UInt64) : UInt64 := capability.toUInt32.toUInt64

/-- The bits that a capability register says may be set. -/
def permitted (capability : UInt64) : UInt64 := capability >>> 32

/-- Wanted bits are merged into a control word within the limits of a capability register. -/
structure Merges (capability desired word : UInt64) : Prop where
  allowed : Word.Within word (permitted capability)
  granted : Word.Within (desired &&& permitted capability) word
  met : Word.Within (demanded capability) (permitted capability) →
    Word.Within (demanded capability) word
  explained : Word.Within word (demanded capability ||| desired)

theorem merges_adjustControls (desired : UInt32) (capability : UInt64) :
    Merges capability desired.toUInt64 (adjustControls desired capability).toUInt64 := by
  have hword : (adjustControls desired capability).toUInt64 =
      (desired.toUInt64 ||| demanded capability) &&& permitted capability := by
    rw [adjustControls, UInt32.toUInt64_and, UInt32.toUInt64_or, Word.toUInt64_toUInt32_shiftRight]
    rfl
  rw [hword]
  refine ⟨?_, ?_, fun hdemanded => ?_, ?_⟩
  all_goals
    rw [Word.within_iff]
    simp only [UInt64.toNat_and, UInt64.toNat_or, Nat.testBit_and, Nat.testBit_or, Bool.and_eq_true,
      Bool.or_eq_true]
  · exact fun _ h => h.2
  · exact fun _ h => ⟨.inl h.1, h.2⟩
  · exact fun i h => ⟨.inr h, Word.within_iff.1 hdemanded i h⟩
  · exact fun _ h => h.1.symm

/-- A bit that is neither demanded nor wanted stays clear. -/
theorem Merges.clear {capability desired word bit : UInt64} (h : Merges capability desired word)
    (hdemanded : demanded capability &&& bit = 0) (hdesired : desired &&& bit = 0) :
    word &&& bit = 0 := by
  refine h.explained.and_eq_zero ?_
  rw [Word.or_and, hdemanded, hdesired, UInt64.or_zero]

end Capability

namespace ProcBased

def invlpgExiting : ProcBased := { bits := 0x200 }

def cr3LoadExiting : ProcBased := { bits := 0x8000 }

def cr3StoreExiting : ProcBased := { bits := 0x10000 }

end ProcBased

/-- A control word: its field, its wanted bits and the registers that report its limits, where
`trueRegister` is the one in force on a processor that says exactly which bits may be cleared. -/
structure ControlWord where
  field : Field
  wanted : UInt32
  register : MsrIndex
  trueRegister : MsrIndex

namespace ControlWord

def pinBased : ControlWord :=
  ⟨.pinBasedExecControls, Session.wantedPinBased, .pinBasedControls, .truePinBasedControls⟩

def primary : ControlWord :=
  ⟨.processorBasedVmexecControls, Session.wantedProcBased, .procBasedControls,
    .trueProcBasedControls⟩

/-- The secondary controls have only one capability register. -/
def secondary : ControlWord :=
  ⟨.secondaryVmexecControls, Session.wantedProcBased2, .procBasedControls2, .procBasedControls2⟩

def exit : ControlWord :=
  ⟨.vmexitControls, Session.wantedExit, .exitControls, .trueExitControls⟩

def entry : ControlWord :=
  ⟨.vmentryControls, Session.wantedEntry, .entryControls, .trueEntryControls⟩

/-- The words in which a guest is given its controls. -/
def all : List ControlWord := [pinBased, primary, secondary, exit, entry]

/-- The limits of a control word: the true ones exactly if bit 55 of the basic information is set. -/
def limits (w : ControlWord) (c : Processor) : UInt64 :=
  c.rdmsr (if (c.rdmsr .vmxBasic).toNat.testBit 55 then w.trueRegister else w.register)

end ControlWord

/-- The secondary controls may be put in force. -/
def Processor.AllowsSecondary (c : Processor) : Prop :=
  Word.Within ProcBased.activateSecondary.bits (Capability.permitted (ControlWord.primary.limits c))

namespace ControlBlock

/-- The tables that the block points to, and the lists of registers, are those of the guest. -/
structure PointsInto (b : ControlBlock) (g : Guest) : Prop where
  table : g.table.pointer = some (b.read .eptptr)
  ioBitmapA : b.read .ioBitmapA = g.ioBitmapA.val
  ioBitmapB : b.read .ioBitmapB = g.ioBitmapB.val
  stored : b.read .vmexitMsrStoreAddr = g.guestMsrArea.val
  loadedOnExit : b.read .vmexitMsrLoadAddr = g.hostMsrArea.val
  loadedOnEntry : b.read .vmentryMsrLoadAddr = g.guestMsrArea.val
  counts : ∀ f ∈ [Field.vmexitMsrStoreCount, .vmexitMsrLoadCount, .vmentryMsrLoadCount],
    b.read f = g.msrCount.toUInt64

end ControlBlock

namespace ControlCapabilities

variable {c : Processor}

theorem contains_trueControls (basic : UInt64) :
    (Flags.truncate basic : VmxBasic).contains VmxBasic.trueControls = basic.toNat.testBit 55 := by
  have hbit : VmxBasic.trueControls.bits.toNat = 2 ^ 55 := rfl
  rw [Bool.eq_iff_iff, Flags.contains_truncate, Word.Within, UInt64.and_comm,
    Word.and_bit_eq_self_iff _ hbit, ne_eq, ← UInt64.toNat_inj, UInt64.toNat_and, hbit,
    Nat.and_two_pow]
  cases basic.toNat.testBit 55 <;> simp

theorem read_eq_limits (c : Processor) :
    ControlCapabilities.read c.rdmsr =
      { pinBased := ControlWord.pinBased.limits c, procBased := ControlWord.primary.limits c
        procBased2 := ControlWord.secondary.limits c, exit := ControlWord.exit.limits c
        entry := ControlWord.entry.limits c } := by
  simp only [ControlCapabilities.read, contains_trueControls, ControlWord.limits]
  cases (c.rdmsr .vmxBasic).toNat.testBit 55 <;> rfl

theorem hasSecondaryControls_iff :
    (ControlCapabilities.read c.rdmsr).hasSecondaryControls = true ↔ c.AllowsSecondary := by
  have hbit : ProcBased.activateSecondary.bits.toNat = 2 ^ 31 := rfl
  rw [hasSecondaryControls, bne_iff_ne, ← Word.and_bit_eq_self_iff _ hbit, read_eq_limits,
    UInt64.and_comm]
  rfl

end ControlCapabilities

namespace Session

open Hypervisor.Action

def controlWrites (caps : ControlCapabilities) (g : Guest) (pointer : UInt64) :
    List (Field × UInt64) :=
  (.pinBasedExecControls, (adjustControls wantedPinBased caps.pinBased).toUInt64) ::
    executionControls caps g ++ (.eptptr, pointer) :: switchControls caps g

theorem configured_eq_writeAll (caps : ControlCapabilities) (g : Guest) (pointer : UInt64)
    (b : ControlBlock) : configured caps g pointer b = b.writeAll (controlWrites caps g pointer) := by
  simp only [configured, controlWrites, ControlBlock.writeAll, List.cons_append, List.foldl_cons,
    List.foldl_append]

theorem read_configured {caps : ControlCapabilities} {g : Guest} {pointer : UInt64} (b : ControlBlock)
    {f : Field} {w : UInt64} (h : (f, w) ∈ controlWrites caps g pointer) :
    (configured caps g pointer b).read f = w := by
  have hnodup : ((controlWrites caps g pointer).map Prod.fst).Nodup := by
    simp [controlWrites, executionControls, switchControls]
  rw [configured_eq_writeAll]
  exact ControlBlock.read_writeAll_of_mem b hnodup h

/-- Each word of the controls is adjusted to its own limits. -/
theorem mem_controlWrites {c : Processor} (g : Guest) (pointer : UInt64) {w : ControlWord}
    (hw : w ∈ ControlWord.all) :
    (w.field, (adjustControls w.wanted (w.limits c)).toUInt64) ∈
      controlWrites (.read c.rdmsr) g pointer := by
  rw [ControlCapabilities.read_eq_limits]
  simp only [ControlWord.all, List.mem_cons, List.not_mem_nil, or_false] at hw
  rcases hw with rfl | rfl | rfl | rfl | rfl
  all_goals simp [controlWrites, executionControls, switchControls, ControlWord.pinBased,
    ControlWord.primary, ControlWord.secondary, ControlWord.exit, ControlWord.entry]

theorem pointsInto_configured {caps : ControlCapabilities} {g : Guest} {pointer : UInt64}
    (hpointer : g.table.pointer = some pointer) (b : ControlBlock) :
    (configured caps g pointer b).PointsInto g := by
  have hread : ∀ {f w}, (f, w) ∈ controlWrites caps g pointer →
      (configured caps g pointer b).read f = w := read_configured b
  constructor
  · have hmem : (Field.eptptr, pointer) ∈ controlWrites caps g pointer := by simp [controlWrites]
    rw [hpointer, hread hmem]
  case counts =>
    intro f hf
    refine hread ?_
    simp only [List.mem_cons, List.not_mem_nil, or_false] at hf
    rcases hf with rfl | rfl | rfl <;> simp [controlWrites, switchControls]
  all_goals exact hread (by simp [controlWrites, executionControls, switchControls])

/-- A guest with a table gets five words that are merged within the limits of the processor, which are
the true ones if it reports them, and pointers to what is its own.  Only injected faults and a processor
without secondary controls keep it from that. -/
theorem configureControls_merges {s : Session} {p : Hpa}
    (hcurrent : s.host.cpu.processor.current = some p) (hroot : s.guest.table.root ≠ none) :
    configureControls.Ends s
      (fun _ t => s.host.cpu.processor.AllowsSecondary ∧
        (∀ w ∈ ControlWord.all, Capability.Merges (w.limits s.host.cpu.processor) w.wanted.toUInt64
          ((t.host.blocks.block p).read w.field)) ∧
        (∀ bit ∈ [ProcBased.cr3LoadExiting, ProcBased.cr3StoreExiting, ProcBased.invlpgExiting],
          Capability.demanded (ControlWord.primary.limits s.host.cpu.processor) &&& bit.bits = 0 →
            (t.host.blocks.block p).read ControlWord.primary.field &&& bit.bits = 0) ∧
        (t.host.blocks.block p).PointsInto s.guest ∧ s.host.Revises p t.host ∧
        t.guest = s.guest ∧ t.context = s.context)
      (fun e t => (s.host.cpu.processor.faults ≠ [] ∨
          ¬ s.host.cpu.processor.AllowsSecondary ∧ e = .eptUnsupported) ∧
        s.host.Revises p t.host ∧ t.guest = s.guest ∧ t.context = s.context)
      fun _ _ => False := by
  have hallows : s.capabilities.hasSecondaryControls = true ↔
      s.host.cpu.processor.AllowsSecondary := ControlCapabilities.hasSecondaryControls_iff
  refine configureControls_revises hcurrent (fun h pointer hrev hsecondary hpointer hblock => ?_)
    fun e h hrev hcause => ⟨?_, hrev, rfl, rfl⟩
  · have hmerges : ∀ w ∈ ControlWord.all,
        Capability.Merges (w.limits s.host.cpu.processor) w.wanted.toUInt64
          ((h.blocks.block p).read w.field) := by
      intro w hw
      have hmem : (w.field, (adjustControls w.wanted (w.limits s.host.cpu.processor)).toUInt64) ∈
          controlWrites s.capabilities s.guest pointer := mem_controlWrites s.guest pointer hw
      rw [hblock, read_configured _ hmem]
      exact Capability.merges_adjustControls w.wanted _
    refine ⟨hallows.1 hsecondary, hmerges, fun bit hbit hclear => ?_, ?_, hrev, rfl, rfl⟩
    · have hunwanted : ∀ bit ∈ [ProcBased.cr3LoadExiting, ProcBased.cr3StoreExiting,
          ProcBased.invlpgExiting], ControlWord.primary.wanted.toUInt64 &&& bit.bits = 0 := by decide
      have hprimary : ControlWord.primary ∈ ControlWord.all := by simp [ControlWord.all]
      exact (hmerges _ hprimary).clear hclear (hunwanted bit hbit)
    · show (h.blocks.block p).PointsInto s.guest
      rw [hblock]
      exact pointsInto_configured hpointer _
  · by_cases hfaults : s.host.cpu.processor.faults = []
    · obtain ⟨hnone, he⟩ := hcause hfaults hroot
      refine .inr ⟨?_, he⟩
      rw [← hallows, hnone]
      exact Bool.false_ne_true
    · exact .inl hfaults

theorem configureControls_merges_sample : ∃ t,
    configureControls.run HandledExit.sample = .ok () t ∧
      (t.host.blocks.block ⟨0x1001000⟩).PointsInto HandledExit.sample.guest ∧
      Capability.Merges 0xfffffffe04006172 0x82000080
        ((t.host.blocks.block ⟨0x1001000⟩).read .processorBasedVmexecControls) := by
  have hreturns : configureControls.Ends HandledExit.sample (fun _ _ => True)
      (fun _ _ => False) fun _ _ => False := by decide +kernel
  obtain ⟨_, t, hrun, -⟩ := hreturns.exists_ok
  obtain ⟨-, hmerges, -, hpoints, -⟩ :=
    (configureControls_merges (p := ⟨0x1001000⟩) rfl (by decide)).ok hrun
  exact ⟨t, hrun, hpoints, hmerges ControlWord.primary (by simp [ControlWord.all])⟩

end Session

end Hypervisor
